import Statechart.Proofs.Session.Round

/-!
# Sessions refine loops

A session of a secluded machine whose events are sent one after the other, some before the
start and some after it, shows its listeners the snapshots of the loop of the machine, and
carries out their actions and nothing else (`served_iff_takes`).
-/

namespace Statechart

namespace Actor

/-- Whether an interpreter that stands alone is not started yet and keeps the given events. -/
structure Waits (m : Machine) (listeners : List String) (queue : List Event) (a : Actor) :
    Prop extends Solitary m a where
  state : a.state = none
  status : a.status = .notStarted
  defers : a.settings.deferEvents = true
  mailbox : a.mailbox = ⟨queue.map .external, false⟩
  listeners : a.listeners.toList = listeners

variable {m : Machine} {listeners : List String} {a : Actor} {queue : List Event}

theorem Waits.receive (h : a.Waits m listeners queue) (event : Event) :
  (a.receive [event]).Waits m listeners (queue ++ [event])
  := by
  constructor
  case toSolitary => exact h.toSolitary.receive [event]
  case state => exact h.state
  case status => exact h.status
  case defers => exact h.defers
  case mailbox => simp [Actor.receive, h.mailbox]
  case listeners => exact h.listeners

/-- An interpreter that starts is where the loop with the kept events begins. -/
theorem Waits.stands (h : a.Waits m listeners queue) :
  Stands m listeners { queue } true
    { a with mailbox := ⟨⟨.init, .start⟩ :: queue.map .external, true⟩, status := .running }
  := by
  constructor
  case mailbox => rfl
  case toFollows =>
    constructor
    case toSolitary => exact ⟨h.machine, h.link, h.resume, h.services, h.timers⟩
    case state => exact h.state
    case status => rfl
    case listeners => exact fun _ => h.listeners

end Actor

namespace Session

open Actor

/-- What is seen of an event that comes too late. -/
def refusal (event : Event) : Observation :=
  .diagnosed (.sentAfterStop event.name)

/-- Whether a session gets to another one by calls, each of which is carried out to its end
before the next. -/
inductive Served : Session → List Work → Session → Prop where
  | none {s} : Served s [] s
  | call {s u work works fuel} (hend : ((s.plan [work]).run fuel).agenda = [])
      (hrest : Served ((s.plan [work]).run fuel) works u) : Served s (work :: works) u

/-- The session after calls, if the fuel is enough to carry out each of them to its end. -/
def serve? (fuel : Nat) (s : Session) : List Work → Option Session
  | [] => some s
  | work :: works =>
    let t := (s.plan [work]).run fuel
    if t.agenda.isEmpty then t.serve? fuel works else none

variable {m : Machine} {listeners : List String} {l l' : Loop} {a : Actor} {s t u : Session}
  {queue events : List Event} {event : Event} {trace : List Observation} {work : Work}
  {works : List Work}

/-! ### Calls -/

/-- An event is kept until the start. -/
theorem leads_send_of_waits (h : a.Waits m listeners queue) (event : Event) :
  Leads ((s.sole a trace []).plan [.send root event]) (s.sole (a.receive [event]) trace [])
  := by
  rw [plan_sole]
  apply Relation.ReflTransGen.single
  apply steps_sole
  simp [carryOut, send, h.status, h.defers]

/-- At the start the boot marker comes ahead of the kept events. -/
theorem exists_leads_start (h : a.Waits m listeners queue) (trace : List Observation) :
  ∃ a', a'.Stands m listeners { queue } true ∧
    Leads ((s.sole a trace []).plan [.start root]) (s.sole a' trace [.pump root])
  := by
  rw [plan_sole]
  refine ⟨_, h.stands, .single ?_⟩
  apply steps_sole
  simp [carryOut, start, status, h.status, h.mailbox, drain, Mailbox.pushFront, Mailbox.claim?]

/-- An event joins the queue of a loop that goes on. -/
theorem exists_leads_send (h : a.Stands m listeners l false) (hopen : l.isOver = false)
    (event : Event) (trace : List Observation) :
  ∃ a', a'.Stands m listeners (l.push event) true ∧
    Leads ((s.sole a trace []).plan [.send root event]) (s.sole a' trace [.pump root])
  := by
  rw [plan_sole]
  refine ⟨{ a with mailbox := ⟨(l.push event).envelopes, true⟩ },
    ⟨(h.toFollows.withMailbox _).withQueue _, rfl⟩, .single ?_⟩
  apply steps_sole
  simp [carryOut, send, enqueue, h.running hopen, h.mailbox, receive, drain, Mailbox.claim?,
    Loop.envelopes_push hopen]

/-- An event that comes after the end of the loop is reported. -/
theorem leads_send_of_over (h : a.Stands m listeners l false) (hover : l.isOver = true)
    (event : Event) :
  Leads ((s.sole a trace []).plan [.send root event])
    (s.sole a (trace ++ [refusal event]) [])
  := by
  rw [plan_sole]
  apply Relation.ReflTransGen.single
  apply steps_sole
  simp [carryOut, send, h.status, hover, refusal]

theorem served_of_serve? {fuel : Nat} (h : s.serve? fuel works = some u) :
  s.Served works u
  := by
  induction works generalizing s with
  | nil =>
    cases h
    exact .none
  | cons work works ih =>
    rw [serve?] at h
    split at h
    · next hend => exact .call (List.isEmpty_iff.mp hend) (ih h)
    · cases h

/-- A call that leads to a session with nothing left to do gets there. -/
theorem served_cons_iff (h : Leads (s.plan [work]) t) (ht : t.agenda = []) :
  s.Served (work :: works) u ↔ t.Served works u
  := by
  constructor
  · intro hserved
    cases hserved with
    | call hend hrest =>
      rw [h.run_eq ht hend] at hrest
      exact hrest
  · intro hrest
    obtain ⟨fuel, hrun⟩ := h.exists_run
    rw [← hrun] at ht hrest
    exact .call ht hrest

/-- If a call starts a drain and comes to its end, the loop comes to rest. -/
theorem exists_drains_of_served (hm : m.Secluded) (h : a.Stands m listeners l true)
    (hleads : Leads (t.plan [work]) (s.sole a (l.observations m listeners) [.pump root]))
    (hserved : t.Served (work :: works) u) :
  ∃ l', m.Drains l l'
  := by
  cases hserved with
  | call hend hrest =>
    obtain ⟨fuel, hrun⟩ := exists_run_of_leads hleads hend
    exact exists_drains_of_run hm h (hrun ▸ hend)

/-- The events before the start are kept. -/
theorem exists_served_send_iff (h : a.Waits m listeners queue) (events : List Event)
    (trace : List Observation) :
  ∃ a', a'.Waits m listeners (queue ++ events) ∧ ∀ works u,
    (s.sole a trace []).Served (events.map (.send root) ++ works) u ↔
      (s.sole a' trace []).Served works u
  := by
  induction events generalizing a queue with
  | nil =>
    rw [List.append_nil]
    exact ⟨a, h, fun works u => Iff.rfl⟩
  | cons event events ih =>
    obtain ⟨a', h', hserved⟩ := ih (h.receive event)
    rw [List.append_assoc] at h'
    refine ⟨a', h', fun works u => ?_⟩
    rw [← hserved works u, List.map_cons, List.cons_append]
    exact served_cons_iff (leads_send_of_waits h event) rfl

/-- If the loop comes to rest, a call that starts a drain comes to its end. -/
theorem exists_served_drain_iff (hm : m.Secluded) (h : a.Stands m listeners l true)
    (hleads : Leads (t.plan [work]) (s.sole a (l.observations m listeners) [.pump root]))
    (hdrains : m.Drains l l') :
  ∃ a', a'.Stands m listeners l' false ∧ ∀ works u,
    t.Served (work :: works) u ↔ (s.sole a' (l'.observations m listeners) []).Served works u
  := by
  obtain ⟨a', h', hrest⟩ := exists_leads_of_drains (s := s) hm hdrains h
  exact ⟨a', h', fun works u => served_cons_iff (hleads.trans hrest) rfl⟩

/-- After the end of the loop all events come too late. -/
theorem served_send_iff_of_over (h : a.Stands m listeners l false) (hover : l.isOver = true)
    (events : List Event) :
  (s.sole a trace []).Served (events.map (.send root)) u ↔
    u = s.sole a (trace ++ events.map refusal) []
  := by
  induction events generalizing trace with
  | nil =>
    rw [List.map_nil, List.map_nil, List.append_nil]
    constructor
    · rintro ⟨⟩
      rfl
    · rintro rfl
      exact .none
  | cons event events ih =>
    rw [List.map_cons, served_cons_iff (leads_send_of_over h hover event) rfl, ih,
      List.append_assoc, List.map_cons, List.singleton_append]

/-- The loop takes the events that a session is sent one by one. -/
theorem exists_takes_of_served (hm : m.Secluded) (h : a.Stands m listeners l false)
    (hserved : (s.sole a (l.observations m listeners) []).Served (events.map (.send root)) u) :
  ∃ l' left a', m.Takes l events l' left ∧ a'.Stands m listeners l' false ∧
    u = s.sole a' (l'.observations m listeners ++ left.map refusal) []
  := by
  induction events generalizing a l with
  | nil =>
    cases hserved
    refine ⟨l, [], a, .all, h, ?_⟩
    rw [List.map_nil, List.append_nil]
  | cons event events ih =>
    cases hover : l.isOver with
    | true =>
      exact ⟨l, event :: events, a, .ended hover, h,
        (served_send_iff_of_over h hover _).mp hserved⟩
    | false =>
      obtain ⟨a₁, h₁, hleads⟩ := exists_leads_send (s := s) h hover event
        (l.observations m listeners)
      obtain ⟨l₁, hdrains⟩ := exists_drains_of_served hm h₁ hleads hserved
      obtain ⟨a₂, h₂, hiff⟩ := exists_served_drain_iff hm h₁ hleads hdrains
      obtain ⟨l', left, a', htakes, h', hu⟩ := ih h₂ ((hiff _ _).mp hserved)
      exact ⟨l', left, a', .step hover hdrains htakes, h', hu⟩

/-- A session is served with the events that the loop takes. -/
theorem exists_served_of_takes (hm : m.Secluded) (h : a.Stands m listeners l false)
    {left : List Event} (htakes : m.Takes l events l' left) :
  ∃ u, (s.sole a (l.observations m listeners) []).Served (events.map (.send root)) u
  := by
  induction htakes generalizing a with
  | all => exact ⟨_, .none⟩
  | ended hover => exact ⟨_, (served_send_iff_of_over h hover _).mpr rfl⟩
  | @step l _ _ event _ _ hopen hdrains hrest ih =>
    obtain ⟨a₁, h₁, hleads⟩ := exists_leads_send (s := s) h hopen event
      (l.observations m listeners)
    obtain ⟨a₂, h₂, hiff⟩ := exists_served_drain_iff hm h₁ hleads hdrains
    obtain ⟨u, hu⟩ := ih h₂
    exact ⟨u, (hiff _ _).mpr hu⟩

/-! ### Listeners -/

/-- The snapshots that a listener was shown. -/
def delivered (listener : String) (trace : List Observation) : List Snapshot :=
  trace.filterMap (fun
    | .published l snapshot => if l = listener then some snapshot else none
    | _ => none)

variable {listener : String}

theorem delivered_append (trace trace' : List Observation) :
  delivered listener (trace ++ trace') = delivered listener trace ++ delivered listener trace'
  := List.filterMap_append

theorem delivered_flatMap {α : Type} (f : α → List Observation) (xs : List α) :
  delivered listener (xs.flatMap f) = xs.flatMap (fun x => delivered listener (f x))
  := List.filterMap_flatMap

theorem delivered_published (listeners : List String) (snapshot : Snapshot) :
  delivered listener (listeners.map (fun l => .published l snapshot)) =
    List.replicate (listeners.count listener) snapshot
  := by
  induction listeners with
  | nil => rfl
  | cons l listeners ih =>
    rw [delivered] at ih ⊢
    rw [List.map_cons, List.filterMap_cons, ih, List.count_cons]
    by_cases hl : l = listener
    · simp [hl, List.replicate_succ]
    · simp [hl]

/-- What is seen of actions is not shown to listeners. -/
theorem delivered_seen (snapshot : Snapshot) (action : ResolvedAction) :
  delivered listener (m.seen snapshot action) = []
  := by
  rw [Machine.seen]
  split
  · rfl
  · rfl
  · cases (m.eval _ snapshot.context action.trigger).toOption <;> rfl
  · rfl
  · rfl

theorem delivered_refusals (left : List Event) :
  delivered listener (left.map refusal) = []
  := by
  induction left with
  | nil => rfl
  | cons event left ih => exact ih

/-- A listener that is registered once is shown the snapshots of the loop. -/
theorem delivered_observations (h : listeners.count listener = 1) (l : Loop) :
  delivered listener (l.observations m listeners) = l.shown
  := by
  have hshown : ∀ s : Snapshot, delivered listener
      (s.actions.flatMap (m.seen s) ++ m.announced listeners s) = [s] := by
    intro s
    rw [delivered_append, delivered_flatMap, Machine.announced, delivered_append,
      delivered_published, h]
    simp only [delivered_seen]
    cases s.done <;> simp [delivered]
  rw [Loop.observations, delivered_append, delivered_flatMap]
  simp only [hshown, List.flatMap_singleton']
  cases l.fault <;> simp [delivered]

/-! ### Sessions before the start -/

/-- Whether a session of a machine is ready to be started: its only interpreter has done
nothing yet and keeps the events that come before the start. -/
def Ready (m : Machine) (listeners : List String) (s : Session) : Prop :=
  ∃ a, a.Waits m listeners [] ∧ s = s.sole a [] []

theorem ready_ofMachine (m : Machine) (catalog : List (String × Source)) :
  (ofMachine m catalog).Ready m []
  := ⟨_, ⟨⟨rfl, rfl, rfl, rfl, rfl⟩, rfl, rfl, rfl, rfl, rfl⟩, rfl⟩

theorem Ready.withSettings (h : s.Ready m listeners) (settings : Settings)
    (hdefers : settings.deferEvents = true) :
  (s.withSettings settings).Ready (m.withLimit settings.limit) listeners
  := by
  obtain ⟨a, ha, hs⟩ := h
  rw [hs, Session.withSettings, modify_sole]
  refine ⟨_, ?_, rfl⟩
  constructor
  case toSolitary =>
    exact ⟨congrArg (Machine.withLimit _) ha.machine, ha.link, ha.resume, ha.services, ha.timers⟩
  case state => exact ha.state
  case status => exact ha.status
  case defers => exact hdefers
  case mailbox => exact ha.mailbox
  case listeners => exact ha.listeners

theorem Ready.subscribe (h : s.Ready m listeners) (listener : String) :
  (s.subscribe listener).Ready m (listeners ++ [listener])
  := by
  obtain ⟨a, ha, hs⟩ := h
  have hsubscribe : ∃ subscriptions, s.subscribe listener =
      { s.sole { a with listeners := a.listeners.subscribe listener } [] [] with
        subscriptions } := by
    rw [hs, Session.subscribe, actor?_sole]
    dsimp only
    split
    · next hstatus hstate =>
      rw [ha.status] at hstatus
      cases hstatus
    · exact ⟨_, rfl⟩
  obtain ⟨subscriptions, hsubscribe⟩ := hsubscribe
  rw [hsubscribe]
  refine ⟨_, ?_, rfl⟩
  constructor
  case toSolitary => exact ⟨ha.machine, ha.link, ha.resume, ha.services, ha.timers⟩
  case state => exact ha.state
  case status => exact ha.status
  case defers => exact ha.defers
  case mailbox => exact ha.mailbox
  case listeners => rw [Listeners.toList_subscribe, ha.listeners]

/-- Let a session of a secluded machine be ready to be started, and let a listener be registered
once.  Let events be sent before the start and after it, each call being carried out to its
end before the next.  The calls come to their ends exactly if the loop of the machine comes to
rest with the events before the start, and then with each event after it.  The listener was
then shown the snapshots of the loop, the last of which is the current one, and the interpreter
is stopped exactly if the loop has ended.  All that is seen of the session are these snapshots
with their actions, the fault that ended the loop, and the events that came after its end. -/
theorem served_iff_takes (hm : m.Secluded) (hs : s.Ready m listeners)
    (hlistener : listeners.count listener = 1) (before after : List Event) :
  ((∃ u, s.Served (before.map (.send root) ++ .start root :: after.map (.send root)) u) ↔
    ∃ l l' left, m.Drains { queue := before } l ∧ m.Takes l after l' left) ∧
  ∀ u, s.Served (before.map (.send root) ++ .start root :: after.map (.send root)) u →
    ∃ l l' left, m.Drains { queue := before } l ∧ m.Takes l after l' left ∧
      delivered listener u.trace = l'.shown ∧
      u.state? root = l'.shown.getLast? ∧
      u.status root = (if l'.isOver then .stopped else .running) ∧
      u.trace = l'.observations m listeners ++ left.map refusal
  := by
  obtain ⟨a, ha, hsole⟩ := hs
  obtain ⟨a₁, ha₁, hbefore⟩ := exists_served_send_iff (s := s) ha before []
  rw [← hsole] at hbefore
  obtain ⟨a₂, ha₂, hstart⟩ := exists_leads_start (s := s) ha₁ []
  have hends : ∀ u,
      s.Served (before.map (.send root) ++ .start root :: after.map (.send root)) u →
      ∃ l l' left a', m.Drains { queue := before } l ∧ m.Takes l after l' left ∧
        a'.Stands m listeners l' false ∧
        u = s.sole a' (l'.observations m listeners ++ left.map refusal) [] := by
    intro u hu
    rw [hbefore] at hu
    obtain ⟨l, hdrains⟩ := exists_drains_of_served hm ha₂ hstart hu
    obtain ⟨a₃, ha₃, hiff⟩ := exists_served_drain_iff hm ha₂ hstart hdrains
    obtain ⟨l', left, a', htakes, ha', hu⟩ := exists_takes_of_served hm ha₃ ((hiff _ _).mp hu)
    exact ⟨l, l', left, a', hdrains, htakes, ha', hu⟩
  constructor
  · constructor
    · rintro ⟨u, hu⟩
      obtain ⟨l, l', left, a', hdrains, htakes, -⟩ := hends u hu
      exact ⟨l, l', left, hdrains, htakes⟩
    · rintro ⟨l, l', left, hdrains, htakes⟩
      obtain ⟨a₃, ha₃, hiff⟩ := exists_served_drain_iff hm ha₂ hstart hdrains
      obtain ⟨u, hu⟩ := exists_served_of_takes (s := s) hm ha₃ htakes
      exact ⟨u, (hbefore _ _).mpr ((hiff _ _).mpr hu)⟩
  · intro u hu
    obtain ⟨l, l', left, a', hdrains, htakes, ha', rfl⟩ := hends u hu
    refine ⟨l, l', left, hdrains, htakes, ?_, ha'.state, ha'.status, rfl⟩
    change delivered listener (l'.observations m listeners ++ left.map refusal) = l'.shown
    rw [delivered_append, delivered_observations hlistener, delivered_refusals,
      List.append_nil]

/-- A machine that sends itself the event `NEXT` on its way from `a` to `b`, which leads it on to
its end. -/
def relaying : Document.Machine where
  root := .node { initial := some "a" }
    [("a", .node { on := [("GO",
        [{ targets := ["b"], actions := [.send (.fixed (.bare "NEXT")) none none none] }])] } []),
     ("b", .node { on := [("NEXT", [{ targets := ["c"] }])] } []),
     ("c", .node { type := some .final } [])]

/-- The session of a machine with a listener. -/
def watched (m : Machine) (listener : String) : Session :=
  ((ofMachine m []).withSettings {}).subscribe listener

theorem served_iff_takes_relaying :
  ∃ chart, Chart.ofDocument relaying = .ok chart ∧
    ∃ (m : Machine) (s u : Session), m.chart = chart ∧ m.Secluded ∧ s.Ready m ["listener"] ∧
      ["listener"].count "listener" = 1 ∧
      s.Served [.send root (.bare "GO"), .start root, .send root (.bare "LATE")] u ∧
      (delivered "listener" u.trace).map Snapshot.configuration = [[0, 1], [0, 2], [0, 3]] ∧
      ∃ l l' left, m.Drains { queue := [.bare "GO"] } l ∧
        m.Takes l [.bare "LATE"] l' left ∧ delivered "listener" u.trace = l'.shown ∧
        u.status root = .stopped ∧ l'.isOver = true
  := by
  obtain ⟨chart, h, hp⟩ := Outcome.exists_of_any (x := Chart.ofDocument relaying)
    (p := fun chart => chart.nodes.all (Node.isPlain {}) ∧
      ((watched (.ofChart chart) "listener").serve? 30
        [.send root (.bare "GO"), .start root, .send root (.bare "LATE")]).any (fun u =>
          (delivered "listener" u.trace).map Snapshot.configuration =
            [[0, 1], [0, 2], [0, 3]] ∧ u.status root = .stopped))
    (by decide +kernel)
  obtain ⟨hplain, hserve⟩ := of_decide_eq_true hp
  obtain ⟨u, hserve, hu⟩ := (Option.any_eq_true _ _).mp hserve
  obtain ⟨hconfigurations, hstatus⟩ := of_decide_eq_true hu
  have hm : ((Machine.ofChart chart).withLimit Machine.defaultLimit).Secluded :=
    fun n hn => Node.secluded_of_isPlain (List.all_eq_true.mp hplain n hn)
  have hready : (watched (.ofChart chart) "listener").Ready
      ((Machine.ofChart chart).withLimit Machine.defaultLimit) ["listener"] :=
    ((ready_ofMachine (.ofChart chart) []).withSettings {} rfl).subscribe "listener"
  have hlistener : ["listener"].count "listener" = 1 := by decide
  have hserved := served_of_serve? hserve
  obtain ⟨l, l', left, hdrains, htakes, hdelivered, -, hover, -⟩ :=
    (served_iff_takes hm hready hlistener [.bare "GO"] [.bare "LATE"]).2 u hserved
  refine ⟨chart, h, _, _, u, rfl, hm, hready, hlistener, hserved, hconfigurations, l, l', left,
    hdrains, htakes, hdelivered, hstatus, ?_⟩
  rw [hstatus] at hover
  cases hl : l'.isOver with
  | true => rfl
  | false =>
    rw [hl] at hover
    cases hover

end Session

end Statechart
