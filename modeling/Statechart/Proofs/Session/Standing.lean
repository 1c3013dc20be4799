import Statechart.Proofs.Machine.Bound
import Statechart.Proofs.Session.Report

/-!
# Where events lead an interpreter

An interpreter that begins with the initial snapshot of its machine stands where the events that it
has taken lead that machine, be it the root of a session or invoked by another interpreter
(`Course.enacting`).  An invoked machine gets the bound of the microsteps that the settings of the
one that invokes it have; so without settings it answers as it does alone if its own bound is the
one of these, or if neither of the two is met (`Course.answers_alone`).
-/

namespace Statechart

variable {n c : Nat} {a b : Actor} {w : Work} {ds es : List Work} {ms ns xs ys : List Moment}
  {m x z : Moment} {e : Envelope} {fault : Fault} {machine : Machine}
  {events : List Event} {event : Event} {s : Snapshot}

/-! ### Machines -/

namespace Machine

/-- Where events lead a machine from the start.  A snapshot in which an event cannot be taken is
the last one. -/
def standing (m : Machine) (events : List Event) : Option Snapshot :=
  events.foldl (fun state event => state.map fun s => (m.transition s event).toOption.getD s)
    m.initial.toOption

theorem standing_concat (m : Machine) (events : List Event) (event : Event) :
  m.standing (events ++ [event]) =
    (m.standing events).map fun s => (m.transition s event).toOption.getD s
  := by
  rw [standing, List.foldl_append]
  rfl

/-- Whether a machine starts and takes all of some events. -/
def TakesAll (m : Machine) (events : List Event) : Prop :=
  ∃ s₀ s, m.initial = .ok s₀ ∧ events.foldlM m.transition s₀ = .ok s

/-- The machine with the bound of a machine that sets none, unless its own is lower. -/
def cautious (m : Machine) : Machine :=
  { m with limit := min m.limit defaultLimit }

theorem one_le_limit (h : machine.initial = .ok s) :
  1 ≤ machine.limit
  := by
  rw [initial] at h
  obtain ⟨p, hp, -⟩ := Outcome.map_eq_ok.mp h
  by_contra hzero
  rw [show machine.limit = 0 by omega] at hp
  cases hp

/-- Events that are all taken lead a machine to the same snapshot under a higher bound. -/
theorem standing_of_takes {low high : Nat} (hlow : 1 ≤ low) (hle : low ≤ high)
    (h : (machine.withLimit low).TakesAll events) :
  (machine.withLimit high).initial = (machine.withLimit low).initial ∧
    (machine.withLimit high).standing events = (machine.withLimit low).standing events
  := by
  obtain ⟨s₀, s, hinitial, htaken⟩ := h
  have hhigh := (curtails_initial machine hlow hle).1.ok hinitial
  suffices hstanding : (machine.withLimit low).standing events = some s ∧
      (machine.withLimit high).standing events = some s from
    ⟨hhigh.trans hinitial.symm, hstanding.2.trans hstanding.1.symm⟩
  induction events using List.reverseRecOn generalizing s with
  | nil =>
    cases htaken
    rw [standing, standing, hinitial, hhigh]
    exact ⟨rfl, rfl⟩
  | append_singleton events event ih =>
    rw [List.foldlM_append] at htaken
    obtain ⟨s', hs', hlast⟩ := Outcome.bind_eq_ok.mp htaken
    obtain ⟨s'', hstep, hpure⟩ := Outcome.bind_eq_ok.mp hlast
    cases hpure
    obtain ⟨hbelow, habove⟩ := ih s' hs'
    rw [standing_concat, standing_concat, hbelow, habove, Option.map_some, Option.map_some, hstep,
      (curtails_transition machine hlow hle s' event).1.ok hstep]
    exact ⟨rfl, rfl⟩

/-- A machine whose bound is the one of a machine that sets none, or that takes all of some events
under the lower of the two bounds, answers these alike under both. -/
theorem answers_of_cautious
    (h : machine.limit = defaultLimit ∨ machine.cautious.TakesAll events) :
  (machine.withLimit defaultLimit).initial = machine.initial ∧
    (machine.withLimit defaultLimit).standing events = machine.standing events
  := by
  have hself : 1 ≤ machine.limit → machine.withLimit machine.limit = machine := by
    intro hone
    rw [withLimit, Nat.max_eq_left hone]
  rcases h with hlimit | htakes
  · rw [← hlimit, hself (by rw [hlimit]; decide)]
    exact ⟨rfl, rfl⟩
  · obtain ⟨s₀, _, hinitial, -⟩ := id htakes
    have hmin : 1 ≤ min machine.limit defaultLimit := one_le_limit hinitial
    have hcautious : machine.cautious = machine.withLimit (min machine.limit defaultLimit) := by
      rw [cautious, withLimit, Nat.max_eq_left hmin]
    rw [hcautious] at htakes
    have hown := standing_of_takes hmin (Nat.min_le_left _ _) htakes
    have hdefault := standing_of_takes hmin (Nat.min_le_right _ _) htakes
    rw [hself (by omega)] at hown
    exact ⟨hdefault.1.trans hown.1.symm, hdefault.2.trans hown.2.symm⟩

end Machine

/-! ### Moments -/

/-- The event that a work takes in the snapshot of an interpreter. -/
def Work.taken? (n : Nat) : Work → Option Event
  | .react k _ event => if k = n then some event else none
  | _ => none

/-- The events that an interpreter takes at some moments, in their order. -/
def heeded (n : Nat) (ms : List Moment) : List Event :=
  ms.filterMap (fun m => m.work.taken? n)

/-- Whether a running interpreter takes its boot marker at a moment. -/
def Moment.Begins (n : Nat) (m : Moment) : Prop :=
  ∃ e a, m.work = .handle n e ∧ e.origin = .start ∧ m.before.actor? n = some a ∧
    a.status = .running

/-- Whether an interpreter has a machine, and nothing persisted to start from. -/
structure Actor.Bears (machine : Machine) (a : Actor) : Prop where
  machine : a.machine = machine
  resume : a.resume = none

/-- Whether an interpreter has a machine at a moment, if it is there. -/
def Moment.Bears (n : Nat) (machine : Machine) (m : Moment) : Prop :=
  ∀ a, m.before.actor? n = some a → a.Bears machine

/-- Whether an interpreter invokes a machine without data at a moment. -/
structure Moment.Invokes (n : Nat) (machine : Machine) (c : Nat) (m : Moment) : Prop where
  service : ∃ v, m.Issues n v ∧ v.backing = .machine c ∧
    m.before.catalog.lookup v.src = some (.machine machine)
  data : ∃ snapshot action later i, m.work = .invoke n snapshot action later ∧
    action.duty = .start i none

theorem heeded_concat (n : Nat) (ms : List Moment) (m : Moment) :
  heeded n (ms ++ [m]) = heeded n ms ++ (m.work.taken? n).toList
  := by
  rw [heeded, List.filterMap_append, List.filterMap_cons]
  cases m.work.taken? n <;> rfl

theorem taken?_eq_some_iff :
  w.taken? n = some event ↔ ∃ snapshot, w = .react n snapshot event
  := by
  constructor
  · intro h
    cases w with
    | react k snapshot e =>
      rw [Work.taken?] at h
      split at h
      · next hk =>
        cases h
        rw [hk]
        exact ⟨snapshot, rfl⟩
      · cases h
    | _ => cases h
  · rintro ⟨snapshot, rfl⟩
    exact if_pos rfl

theorem taken?_of_outside (h : w.duty? ≠ some n) :
  w.taken? n = none
  := by
  cases hevent : w.taken? n with
  | none => rfl
  | some event =>
    obtain ⟨snapshot, rfl⟩ := taken?_eq_some_iff.mp hevent
    exact absurd rfl h

theorem heeded_eq_nil (h : ∀ m ∈ ms, m.work.duty? ≠ some n) :
  heeded n ms = []
  := List.filterMap_eq_nil_iff.mpr (fun m hm => taken?_of_outside (h m hm))

theorem Moment.FailsToStart.begins (h : m.FailsToStart n fault) :
  m.Begins n
  := by
  obtain ⟨e, a, hwork, hstart, ha, hrunning, -⟩ := h
  exact ⟨e, a, hwork, hstart, ha, hrunning⟩

theorem Actor.Bears.outset (h : a.Bears machine) :
  a.outset = machine.initial
  := by
  rw [Actor.outset, h.resume, h.machine]

/-- An interpreter fails to start if its machine does. -/
theorem Moment.Bears.failsToStart_iff (h : m.Bears n machine) (hbegins : m.Begins n) :
  m.FailsToStart n fault ↔ machine.initial = .error fault
  := by
  obtain ⟨e, a, hwork, hstart, ha, hrunning⟩ := hbegins
  have houtset := (h a ha).outset
  constructor
  · rintro ⟨_, b, _, _, hb, _, hfault⟩
    rw [ha, Option.some.injEq] at hb
    subst hb
    exact houtset.symm.trans hfault
  · intro hfault
    exact ⟨e, a, hwork, hstart, ha, hrunning, houtset.trans hfault⟩

/-! ### Snapshots -/

/-- Where an interpreter with a machine stands: before it has taken its boot marker, which waits
from the start on, it has no snapshot and takes no event; after that it stands where its events lead
the machine. -/
structure Actor.Enacting (n : Nat) (machine : Machine) (ms : List Moment) (a : Actor)
    (ds : List Work) : Prop where
  waiting : (∀ m ∈ ms, ¬ m.Begins n) → a.state = none ∧ heeded n ms = [] ∧
    (a.status = .running → ∃ e ∈ a.backlog ds, e.origin = .start)
  begun : (∃ m ∈ ms, m.Begins n) → a.state = machine.standing (heeded n ms) ∧
    a.status ≠ .notStarted ∧ ∀ e ∈ a.backlog ds, e.origin ≠ .start

/-- An interpreter that is started gets its boot marker. -/
theorem Turn.marks (h : Turn n w a ds b es) (horderly : a.Orderly n ds)
    (ha : a.status = .notStarted) (hb : b.status = .running) :
  ∃ e ∈ b.backlog es, e.origin = .start
  := by
  have hds := (horderly.unstarted ha).1
  have hsame : a.status ≠ .running := by
    rw [ha]
    exact Status.noConfusion
  cases h with
  | calm _ hlike => exact absurd (hlike.status.symm.trans hb) hsame
  | wake _ hrunning => exact absurd hrunning hsame
  | start =>
    refine ⟨⟨.init, .start⟩, ?_, rfl⟩
    rw [Actor.backlog]
    exact List.mem_append_right _ List.mem_cons_self
  | stop _ hlike => exact absurd (hlike.status.symm.trans hb) Status.noConfusion
  | release hlike => exact absurd (hlike.status.symm.trans hb) hsame
  | _ => cases hds

/-- A turn at which no boot marker is taken leaves an interpreter the snapshot that it has, unless
it takes an event. -/
theorem Turn.state_of_taken (h : Turn n w a ds b es) (horderly : a.Orderly n ds)
    (hbegins : ∀ e, w = .handle n e → e.origin = .start → a.status ≠ .running) :
  b.state = match w.taken? n with
    | none => a.state
    | some event => a.state.map fun s => (a.machine.transition s event).toOption.getD s
  := by
  cases hevent : w.taken? n with
  | none =>
    rcases h.state with hsame | ⟨hrunning, e, rfl, hstart⟩ | ⟨snapshot, event, next, rfl, -, -⟩
    · exact hsame
    · exact absurd hrunning (hbegins e rfl hstart)
    · rw [taken?_eq_some_iff.mpr ⟨snapshot, rfl⟩] at hevent
      cases hevent
  | some event =>
    obtain ⟨snapshot, rfl⟩ := taken?_eq_some_iff.mp hevent
    cases h with
    | calm hother => exact absurd rfl hother
    | wake hother => exact absurd rfl hother
    | idle hidle hlike =>
      obtain ⟨hstate, -⟩ := horderly.stage.of_react
      cases hidle with
      | react hnone =>
        dsimp only
        rw [hlike.state, hstate, Option.map_some]
        cases hfault : a.machine.transition snapshot event with
        | ok next => exact absurd hfault (hnone next)
        | error fault => rfl
    | move hnext =>
      obtain ⟨hstate, -⟩ := horderly.stage.of_react
      dsimp only
      rw [hstate, Option.map_some, hnext]
      rfl

namespace Session

variable {s s₀ t t₀ : Session}

/-- An interpreter that takes its boot marker gets the first snapshot of its machine, if there is
one. -/
theorem state_of_begins (hwork : m.work = .handle n e) (hstart : e.origin = .start)
    (ha : m.before.actor? n = some a) (hrunning : a.status = .running) (hbears : a.Bears machine)
    (hstate : a.state = none) (hb : m.after.actor? n = some b) :
  b.state = machine.initial.toOption
  := by
  have hboot : m.after = m.before.boot n := by
    rw [Moment.after, hwork, carryOut, handle_of_start ha hrunning hstart]
  rw [hboot] at hb
  cases hfirst : machine.initial with
  | ok snapshot =>
    rw [boot, ha] at hb
    dsimp only at hb
    rw [hbears.resume, hbears.machine] at hb
    dsimp only at hb
    rw [hfirst] at hb
    dsimp only at hb
    rw [commit, actor?_plan, actor?_modify_self, actor?_modify_self, ha] at hb
    cases hb
    rfl
  | error fault =>
    rw [boot_of_fault ha (hbears.outset.trans hfirst), fail, actor?_plan, actor?_diagnose,
      actor?_modify_self, ha] at hb
    cases hb
    exact hstate

/-- There is no boot marker left when one was taken. -/
theorem unmarked_of_begins (hturn : Turn n (.handle n e) a ds b es) (horderly : a.Orderly n ds)
    (hrunning : a.status = .running) (hstart : e.origin = .start) :
  ∀ x ∈ b.backlog es, x.origin ≠ .start
  := by
  have hrest : ∀ {ds : List Work}, (∀ x ∈ (a.backlog (.handle n e :: ds)).tail, x.origin ≠ .start) →
      b.backlog es = b.backlog ds → (∃ arrivals, b.mailbox.queue = a.mailbox.queue ++ arrivals ∧
        ∀ e ∈ arrivals, e.origin ≠ .start) → ∀ x ∈ b.backlog es, x.origin ≠ .start := by
    rintro ds htail hsame ⟨arrivals, hqueue, hunmarked⟩
    rw [hsame, Actor.backlog, hqueue, ← List.append_assoc]
    exact List.forall_mem_append.mpr ⟨htail, hunmarked⟩
  have htail := horderly.unmarked
  cases hturn with
  | calm hother => exact absurd rfl hother
  | wake hother => exact absurd rfl hother
  | idle hidle =>
    cases hidle with
    | handle hidle => exact absurd hstart (hidle hrunning)
  | boot _ _ _ hlike => exact hrest htail (backlog_committed b _ _) hlike.queue
  | unbooted _ _ hlike => exact hrest htail rfl hlike.queue
  | accept _ hother => exact absurd hstart hother

/-- An interpreter that takes its boot marker stands where its machine begins. -/
theorem Course.enacting_begin (h₀ : s₀.Fresh) (h : Course s₀ ms s) (hm : s.Does m)
    (henacting : a.Enacting n machine ms (s.duties n)) (ha : m.before.actor? n = some a)
    (hb : m.after.actor? n = some b) (hbears : a.Bears machine)
    (hturn : Turn n m.work a (s.duties n) b (m.after.duties n)) (hbegins : m.Begins n) :
  b.Enacting n machine (ms ++ [m]) (m.after.duties n)
  := by
  have horderly := h.orderly h₀ ((hm.actor? n).symm.trans ha)
  obtain ⟨e, a', hwork, hstart, ha', hrunning⟩ := id hbegins
  rw [ha, Option.some.injEq] at ha'
  subst ha'
  have hmem : e ∈ a.backlog (s.duties n) := by
    rw [hm.duties_eq_cons hwork rfl, backlog_cons]
    exact List.mem_append_left _ List.mem_cons_self
  constructor
  case waiting =>
    intro hnone
    exact absurd hbegins (hnone m (List.mem_append_right _ (List.mem_singleton_self m)))
  case begun =>
    intro _
    have hbefore : ∀ z ∈ ms, ¬ z.Begins n :=
      fun z hz hbegun => (henacting.begun ⟨z, hz, hbegun⟩).2.2 e hmem hstart
    have hevent : m.work.taken? n = none := by rw [hwork]; rfl
    rw [heeded_concat, (henacting.waiting hbefore).2.1, hevent]
    refine ⟨?_, hturn.started (by rw [hrunning]; exact Status.noConfusion), ?_⟩
    · exact state_of_begins hwork hstart ha hrunning hbears (horderly.marked e hmem hstart) hb
    · rw [hwork] at hturn
      exact unmarked_of_begins hturn horderly hrunning hstart

/-- An interpreter that does anything but take its boot marker goes on to stand where its machine
does. -/
theorem Course.enacting_on (h₀ : s₀.Fresh) (h : Course s₀ ms s) (hm : s.Does m)
    (henacting : a.Enacting n machine ms (s.duties n)) (ha : m.before.actor? n = some a)
    (hbears : a.Bears machine) (hturn : Turn n m.work a (s.duties n) b (m.after.duties n))
    (hbegins : ¬ m.Begins n) :
  b.Enacting n machine (ms ++ [m]) (m.after.duties n)
  := by
  have horderly := h.orderly h₀ ((hm.actor? n).symm.trans ha)
  have hstate := hturn.state_of_taken horderly
    (fun e hwork hstart hrunning => hbegins ⟨e, a, hwork, hstart, ha, hrunning⟩)
  rw [hbears.machine] at hstate
  constructor
  case waiting =>
    intro hnone
    obtain ⟨hfirst, htaken, hmarker⟩ := henacting.waiting (List.forall_mem_append.mp hnone).1
    -- an event is taken in a snapshot only
    have hevent : m.work.taken? n = none := by
      cases hevent : m.work.taken? n with
      | none => rfl
      | some event =>
        obtain ⟨snapshot, hwork⟩ := taken?_eq_some_iff.mp hevent
        have hstage := horderly.stage
        rw [hm.duties_eq_cons hwork rfl] at hstage
        rw [hstage.of_react.1] at hfirst
        cases hfirst
    rw [hevent] at hstate
    rw [heeded_concat, htaken, hevent]
    refine ⟨hstate.trans hfirst, rfl, fun hrunning => ?_⟩
    by_cases hnew : a.status = .notStarted
    · exact hturn.marks horderly hnew hrunning
    · have hactive := hturn.running_before hnew hrunning
      obtain ⟨e, he, hstart⟩ := hmarker hactive
      obtain ⟨arrivals, hfifo⟩ := hturn.backlog horderly hnew
        (h.not_release h₀ hm ((hm.actor? n).symm.trans ha) hactive)
      have he : e ∈ (m.work.handled? n).toList ++ b.backlog (m.after.duties n) := by
        rw [hfifo]
        exact List.mem_append_left arrivals he
      rcases List.mem_append.mp he with hhandled | hleft
      · have hwork := handled?_eq_some_iff.mp (Option.mem_toList.mp hhandled)
        exact absurd ⟨e, a, hwork, hstart, ha, hactive⟩ hbegins
      · exact ⟨e, hleft, hstart⟩
  case begun =>
    rintro ⟨z, hz, hbegun⟩
    have hz : z ∈ ms := by
      refine (List.mem_append.mp hz).resolve_right (fun hz => ?_)
      rw [List.mem_singleton.mp hz] at hbegun
      exact hbegins hbegun
    obtain ⟨hlast, hstarted, hunmarked⟩ := henacting.begun ⟨z, hz, hbegun⟩
    refine ⟨?_, hturn.started hstarted, fun e he hstart => ?_⟩
    · rw [hstate, heeded_concat]
      cases m.work.taken? n with
      | none =>
        rw [Option.toList_none, List.append_nil]
        exact hlast
      | some event => rw [Option.toList_some, Machine.standing_concat, ← hlast]
    · exact hunmarked e (hturn.marked horderly hstarted he hstart) hstart

/-- An interpreter that has a machine whenever it is there stands where this does. -/
theorem Course.enacting (h₀ : s₀.Fresh) (h : Course s₀ ms s) (hms : ∀ m ∈ ms, m.Bears n machine)
    (ha : s.actor? n = some a) :
  a.Enacting n machine ms (s.duties n)
  := by
  refine (h.induction_view (P := fun ms a ds => (∀ m ∈ ms, m.Bears n machine) →
    a.Enacting n machine ms ds) ?_ ?_ ?_ h₀).2 a ha hms
  · intro ms a hprecedes hnew _
    constructor
    case waiting =>
      intro _
      refine ⟨hnew.state, heeded_eq_nil (fun m hm => (hprecedes m hm).2.1), fun hrunning => ?_⟩
      rw [hnew.status] at hrunning
      cases hrunning
    case begun =>
      rintro ⟨m, hm, e, a, -, -, ha, -⟩
      rw [(hprecedes m hm).1] at ha
      cases ha
  · intro ms a b ds ih hlike hms
    obtain ⟨hwaiting, hbegun⟩ := ih hms
    obtain ⟨arrivals, hqueue, hunmarked⟩ := hlike.queue
    have hbacklog : b.backlog ds = a.backlog ds ++ arrivals := by
      rw [Actor.backlog, hqueue, ← List.append_assoc, Actor.backlog]
    rw [← hlike.state, ← hlike.status] at hwaiting hbegun
    constructor
    case waiting =>
      intro hnone
      obtain ⟨hstate, htaken, hmarker⟩ := hwaiting hnone
      refine ⟨hstate, htaken, fun hrunning => ?_⟩
      obtain ⟨e, he, hstart⟩ := hmarker hrunning
      rw [hbacklog]
      exact ⟨e, List.mem_append_left arrivals he, hstart⟩
    case begun =>
      intro hsome
      obtain ⟨hstate, hstarted, hold⟩ := hbegun hsome
      rw [hbacklog]
      exact ⟨hstate, hstarted, List.forall_mem_append.mpr ⟨hold, hunmarked⟩⟩
  · intro ms t m a b hcourse hm ih ha hb hturn hms
    obtain ⟨hms, hlast⟩ := List.forall_mem_append.mp hms
    have hbears := hlast m (List.mem_singleton_self m) a ha
    by_cases hbegins : m.Begins n
    · exact hcourse.enacting_begin h₀ hm (ih hms) ha hb hbears hturn hbegins
    · exact hcourse.enacting_on h₀ hm (ih hms) ha hbears hturn hbegins

/-! ### Invoked machines -/

/-- An interpreter other than the root keeps its machine. -/
theorem Course.exists_machine (h : Course s ms t) (hn : n ≠ root) (ha : s.actor? n = some a) :
  ∃ b, t.actor? n = some b ∧ b.machine = a.machine
  := by
  induction h with
  | refl => exact ⟨a, ha, rfl⟩
  | call h hcall ih =>
    obtain ⟨b, hb, hmachine⟩ := ih
    obtain ⟨c, hc, -, -, hkept⟩ := hcall.exists_kept hb
    exact ⟨c, hc, (hkept hn).1.trans hmachine⟩
  | @step ms t m h hm ih =>
    obtain ⟨b, hb, hmachine⟩ := ih
    obtain ⟨c, hc, hages⟩ := exists_ages m.before m.work ((hm.actor? n).trans hb)
    exact ⟨c, hc, hages.machine.trans hmachine⟩

/-- An invoked machine without data is run as it is, with the bound of the settings. -/
theorem Course.exists_invoked (h₀ : s₀.Fresh) (h : Course s₀ ms s) (hm : s.Does m)
    (hinvokes : m.Invokes n machine c) :
  n < c ∧ m.before.actor? c = none ∧ ∃ a b, m.before.actor? n = some a ∧
    m.after.actor? c = some b ∧ b.machine = machine.withLimit a.settings.limit ∧
    b.settings = a.settings
  := by
  obtain ⟨⟨v, hissues, hbacking, hsource⟩, snapshot, action, later, i, hwork, hduty⟩ := hinvokes
  obtain ⟨hlt, hnone, -, -⟩ := h.launched_machine h₀ hm hissues hbacking
  obtain ⟨_, _, _, _, _, hwork', hduty', -, hlaunched, -, -⟩ := h.launched h₀ hm hissues
  rw [hwork, Work.invoke.injEq] at hwork'
  obtain ⟨-, rfl, rfl, rfl⟩ := hwork'
  rw [hduty, Duty.start.injEq] at hduty'
  obtain ⟨rfl, rfl⟩ := hduty'
  refine ⟨hlt, hnone, ?_⟩
  cases hlaunched with
  | task hother =>
    rw [hbacking] at hother
    cases hother
  | callback hother =>
    rw [hbacking] at hother
    cases hother
  | machine ha hsource' hbacking' hchild =>
    rw [hbacking, Backing.machine.injEq] at hbacking'
    rw [hsource, Option.some.injEq, Source.machine.injEq] at hsource'
    subst hsource'
    rw [← hbacking'] at hchild
    exact ⟨_, _, ha, hchild, rfl, rfl⟩

/-- An invoked machine without data is run with the bound of the settings all along a course. -/
theorem Course.invoked_bears (h₀ : s₀.Fresh) (h : Course s₀ (xs ++ x :: ys) s)
    (hinvokes : x.Invokes n machine c) (ha : x.before.actor? n = some a)
    (hnew : ∀ y ∈ ys, ∀ b, y.before.actor? c = some b → b.resume = none) :
  ∀ m ∈ xs ++ x :: ys, m.Bears c (machine.withLimit a.settings.limit)
  := by
  obtain ⟨t, hcourse, hdoes, hrest⟩ := h.split
  obtain ⟨hlt, hnone, a', b, ha', hb, hmachine, -⟩ := hcourse.exists_invoked h₀ hdoes hinvokes
  rw [ha, Option.some.injEq] at ha'
  subst ha'
  have hc : c ≠ root := Nat.ne_of_gt ((Nat.zero_le n).trans_lt hlt)
  refine List.forall_mem_append.mpr ⟨?_, List.forall_mem_cons.mpr ⟨?_, ?_⟩⟩
  · -- it is not there before it is invoked
    intro m hm d hd
    obtain ⟨us, vs, rfl⟩ := List.append_of_mem hm
    obtain ⟨u, -, hm, hafter⟩ := hcourse.split
    obtain ⟨d', hd', -⟩ := exists_ages m.before m.work hd
    obtain ⟨e, he, -⟩ := hafter.exists_machine hc hd'
    rw [hdoes.actor?, he] at hnone
    cases hnone
  · intro d hd
    rw [hnone] at hd
    cases hd
  · intro m hm d hd
    obtain ⟨us, vs, rfl⟩ := List.append_of_mem hm
    obtain ⟨u, hbefore, hdoes', -⟩ := hrest.split
    obtain ⟨e, he, hsame⟩ := hbefore.exists_machine hc hb
    rw [← hdoes'.actor?, hd, Option.some.injEq] at he
    subst he
    exact ⟨hsame.trans hmachine, hnew m hm d hd⟩

/-- Whether an interpreter does at some moments what a machine does: it fails to start if the
machine does, and its snapshots are those to which its events lead the machine. -/
structure Enacts (n : Nat) (machine : Machine) (ms : List Moment) (s : Session) : Prop where
  start : ∀ m ∈ ms, m.Begins n → ∀ fault, m.FailsToStart n fault ↔ machine.initial = .error fault
  waiting : (∀ m ∈ ms, ¬ m.Begins n) → s.state? n = none ∧ heeded n ms = []
  begun : (∃ m ∈ ms, m.Begins n) → s.state? n = machine.standing (heeded n ms)
  /-- An interpreter that runs has taken its boot marker when nothing is left to be done. -/
  rest : s.agenda = [] → s.isRunning n = true → ∃ m ∈ ms, m.Begins n

theorem Course.enacts (h₀ : s₀.Fresh) (h : Course s₀ ms s) (hms : ∀ m ∈ ms, m.Bears n machine) :
  s.Enacts n machine ms
  := by
  have hgone : s.actor? n = none → ∀ m ∈ ms, ¬ m.Begins n := by
    rintro hnone m hm ⟨e, a, -, -, ha, -⟩
    obtain ⟨us, vs, rfl⟩ := List.append_of_mem hm
    obtain ⟨t, -, -, hafter⟩ := h.split
    obtain ⟨b, hb, -⟩ := exists_ages m.before m.work ha
    obtain ⟨c, hc, -⟩ := hafter.exists_link hb
    rw [hnone] at hc
    cases hc
  cases ha : s.actor? n with
  | none =>
    have hnone : Session.Precedes n ms := ((h.induction_view (P := fun _ _ _ => True)
      (fun _ _ _ _ => trivial) (fun _ _ _ _ _ _ => trivial)
      (fun _ _ _ _ _ _ _ _ _ _ _ => trivial) h₀).1 ha).1
    constructor
    case start => exact fun m hm hbegins => absurd hbegins (hgone ha m hm)
    case waiting =>
      intro _
      rw [state?, ha]
      exact ⟨rfl, heeded_eq_nil (fun m hm => (hnone m hm).2.1)⟩
    case begun =>
      rintro ⟨m, hm, hbegins⟩
      exact absurd hbegins (hgone ha m hm)
    case rest =>
      intro _ hrunning
      rw [isRunning, status, ha] at hrunning
      cases hrunning
  | some a =>
    have hstate : s.state? n = a.state := by rw [state?, ha]; rfl
    obtain ⟨hwaiting, hbegun⟩ := h.enacting h₀ hms ha
    constructor
    case start => exact fun m hm hbegins fault => (hms m hm).failsToStart_iff hbegins
    case waiting =>
      intro hnone
      obtain ⟨hfirst, htaken, -⟩ := hwaiting hnone
      exact ⟨hstate.trans hfirst, htaken⟩
    case begun => exact fun hsome => hstate.trans (hbegun hsome).1
    case rest =>
      intro hagenda hrunning
      have hnil : s.duties n = [] := by rw [duties, hagenda, List.filter_nil]
      have hactive := (isRunning_iff ha).mp hrunning
      by_contra hnone
      obtain ⟨e, he, hstart⟩ :=
        (hwaiting (fun m hm hbegins => hnone ⟨m, hm, hbegins⟩)).2.2 hactive
      refine h.booted h₀ ha ?_ hnil e he hstart
      rw [hactive]
      exact Status.noConfusion

/-- A machine that is invoked without data by a root without settings does what it does with the
bound that these have, and alone it does what it does with its own bound.  If its bound is the
same, or it takes all events under the lower of the two, then it fails to start in both places or
in none, with the same fault, and the same events lead to the same snapshots. -/
theorem Course.answers_alone (h₀ : s₀.Fresh) (h : Course s₀ (xs ++ x :: ys) s)
    (hinvokes : x.Invokes root machine n) (ha : x.before.actor? root = some a)
    (hsettings : a.settings = {})
    (hnew : ∀ y ∈ ys, ∀ b, y.before.actor? n = some b → b.resume = none)
    (h₁ : t₀.Fresh) (g : Course t₀ ns t) (halone : ∀ z ∈ ns, z.Bears root machine) :
  s.Enacts n (machine.withLimit Machine.defaultLimit) (xs ++ x :: ys) ∧ t.Enacts root machine ns ∧
    (machine.limit = Machine.defaultLimit ∨
        machine.cautious.TakesAll (heeded n (xs ++ x :: ys)) →
      (∀ y ∈ xs ++ x :: ys, ∀ z ∈ ns, y.Begins n → z.Begins root →
        ∀ fault, y.FailsToStart n fault ↔ z.FailsToStart root fault) ∧
      ((∃ y ∈ xs ++ x :: ys, y.Begins n) → (∃ z ∈ ns, z.Begins root) →
        heeded n (xs ++ x :: ys) = heeded root ns → s.state? n = t.state? root))
  := by
  have hchild := h.enacts h₀ (h.invoked_bears h₀ hinvokes ha hnew)
  rw [hsettings] at hchild
  have hroot := g.enacts h₁ halone
  refine ⟨hchild, hroot, fun hbounds => ?_⟩
  obtain ⟨hinitial, hstanding⟩ := Machine.answers_of_cautious hbounds
  constructor
  · intro y hy z hz hy' hz' fault
    have hfails := hchild.start y hy hy' fault
    change _ ↔ (machine.withLimit Machine.defaultLimit).initial = _ at hfails
    rw [hfails, hroot.start z hz hz' fault, hinitial]
  · intro hy hz hsame
    rw [hchild.begun hy, hroot.begun hz, ← hsame]
    exact hstanding

/-! ### Runs of a machine, invoked and alone -/

/-- What is kept of an interpreter whatever is done holds of it at all moments of a run. -/
theorem forall_trail {P : Actor → Prop} (hP : ∀ a b w, P a → a.Ages n w b → P b) (fuel : Nat)
    (h : ∃ a, s.actor? n = some a ∧ P a) :
  (∀ m ∈ (s.trail fuel).1, ∃ a, m.before.actor? n = some a ∧ P a) ∧
    ∃ a, (s.trail fuel).2.actor? n = some a ∧ P a
  := by
  induction fuel generalizing s with
  | zero => exact ⟨List.forall_mem_nil _, h⟩
  | succ fuel ih =>
    rw [trail]
    split
    · exact ⟨List.forall_mem_nil _, h⟩
    · next w rest hagenda =>
      obtain ⟨a, ha, hPa⟩ := h
      obtain ⟨b, hb, hages⟩ := exists_ages { s with agenda := rest } w ha
      obtain ⟨hmoments, hlast⟩ := ih ⟨b, hb, hP a b w hPa hages⟩
      exact ⟨List.forall_mem_cons.mpr ⟨⟨a, ha, hPa⟩, hmoments⟩, hlast⟩

theorem forall_conduct {P : Actor → Prop} (hP : ∀ a b w, P a → a.Ages n w b → P b) (fuel : Nat)
    (ws : List Work) (h : ∃ a, s.actor? n = some a ∧ P a) :
  ∀ m ∈ (s.conduct fuel ws).1, ∃ a, m.before.actor? n = some a ∧ P a
  := by
  induction ws generalizing s with
  | nil => exact List.forall_mem_nil _
  | cons w ws ih =>
    obtain ⟨hmoments, hlast⟩ := forall_trail (s := s.plan [w]) hP fuel h
    exact List.forall_mem_append.mpr ⟨hmoments, ih hlast⟩

/-- The session of a chart that may invoke a machine. -/
def ofInvoked (chart : Chart) (machine : Machine) : Session :=
  ofMachine (.ofChart chart) [("child", .machine machine)]

/-- The session of a machine that could be invoked as well. -/
def ofAlone (machine : Machine) : Session :=
  ofMachine machine [("child", .machine machine)]

theorem fresh_ofCatalog {root : Machine} (hroot : root.chart.Compiled)
    (hmachine : machine.chart.Compiled) :
  (ofMachine root [("child", .machine machine)]).Fresh
  := by
  apply fresh_ofMachine hroot
  intro src m hm
  rw [List.lookup_cons] at hm
  split at hm
  · cases hm
    exact hmachine
  · cases hm

/-- A run in which the root is started and gets events. -/
def attendance (s : Session) (names : List String) : List Moment × Session :=
  s.conduct 60 (.start root :: names.map (fun name => .send root (.bare name)))

theorem course_attendance (s : Session) (names : List String) :
  Course s (s.attendance names).1 (s.attendance names).2
  := by
  apply course_conduct
  refine List.forall_mem_cons.mpr ⟨rfl, fun w hw => ?_⟩
  obtain ⟨name, -, rfl⟩ := List.mem_map.mp hw
  rfl

/-- In such a run the root keeps its machine and its settings. -/
theorem bears_attendance {catalog : List (String × Source)} (names : List String) :
  ∀ m ∈ ((ofMachine machine catalog).attendance names).1,
    ∃ a, m.before.actor? root = some a ∧ a.Bears machine ∧ a.settings = {}
  := by
  apply forall_conduct
  · rintro a b w ⟨hbears, hsettings⟩ hages
    refine ⟨⟨hages.machine.trans hbears.machine, ?_⟩, hages.settings.trans hsettings⟩
    exact hages.resume.elim (fun h => h.trans hbears.resume) id
  · exact ⟨_, rfl, ⟨rfl, rfl⟩, rfl⟩

/-- Whether the first child is invoked without data at a moment. -/
def invokesPlainly (m : Moment) : Bool :=
  (match m.work with
    | .invoke k _ action _ => k == root && match action.duty with
      | .start _ none => true
      | _ => false
    | _ => false) && m.after.agenda.any admitsChild

theorem invokes_of_invokesPlainly
    (hsource : m.before.catalog.lookup "child" = some (.machine machine))
    (h : invokesPlainly m = true) :
  m.Invokes root machine 1
  := by
  obtain ⟨hinvoke, hmem⟩ := Bool.and_eq_true_iff.mp h
  obtain ⟨w, hmem, hw⟩ := List.any_eq_true.mp hmem
  rw [eq_register_of_admitsChild hw] at hmem
  split at hinvoke
  · next k snapshot action later hwork =>
    obtain ⟨hk, hduty⟩ := Bool.and_eq_true_iff.mp hinvoke
    rw [eq_of_beq hk] at hwork
    split at hduty
    · next i hstart =>
      exact ⟨⟨firstChild, ⟨⟨snapshot, action, later, hwork⟩, hmem⟩, rfl, hsource⟩,
        snapshot, action, later, i, hwork, hstart⟩
    · cases hduty
  · cases hinvoke

/-- Whether an interpreter takes its boot marker at a moment. -/
def isBeginning (c : Nat) (m : Moment) : Bool :=
  match m.work with
  | .handle k e => k == c && e.origin == .start &&
    (m.before.actor? c).any (fun a => a.status == .running)
  | _ => false

theorem begins_of_isBeginning (h : isBeginning c m = true) :
  m.Begins c
  := by
  rw [isBeginning] at h
  split at h
  · next k e hwork =>
    simp only [Bool.and_eq_true, beq_iff_eq] at h
    obtain ⟨⟨rfl, hstart⟩, ha⟩ := h
    obtain ⟨a, ha, hrunning⟩ := (Option.any_eq_true _ _).mp ha
    exact ⟨e, a, hwork, hstart, ha, eq_of_beq hrunning⟩
  · cases h

/-- Whether the first child is invoked at a moment of a run, with nothing persisted to start from,
and takes its boot marker. -/
def isCompany (run : List Moment × Session) (k : Nat) : Bool :=
  run.1[k]?.any invokesPlainly && run.1.any (isBeginning 1) &&
    (run.1.drop (k + 1)).all (fun y => (y.before.actor? 1).all (fun b => b.resume.isNone))

theorem company_of_isCompany {chart : Chart} {names : List String} {k : Nat}
    (h₀ : (ofInvoked chart machine).Fresh)
    (h : isCompany ((ofInvoked chart machine).attendance names) k = true) :
  ∃ xs x ys a, ((ofInvoked chart machine).attendance names).1 = xs ++ x :: ys ∧
    x.Invokes root machine 1 ∧ x.before.actor? root = some a ∧ a.settings = {} ∧
    (∀ y ∈ ys, ∀ b, y.before.actor? 1 = some b → b.resume = none) ∧
    ∃ y ∈ xs ++ x :: ys, y.Begins 1
  := by
  simp only [isCompany, Bool.and_eq_true] at h
  obtain ⟨⟨hx, hbegins⟩, hnew⟩ := h
  obtain ⟨x, hx, hinvokes⟩ := (Option.any_eq_true _ _).mp hx
  have hsplit := eq_take_append_cons_drop hx
  obtain ⟨y, hy, hbegins⟩ := List.any_eq_true.mp hbegins
  have hcourse := course_attendance (ofInvoked chart machine) names
  have hmem : x ∈ ((ofInvoked chart machine).attendance names).1 := List.mem_of_getElem? hx
  have hbears := bears_attendance names x hmem
  obtain ⟨a, ha, -, hsettings⟩ := hbears
  have hsource : x.before.catalog.lookup "child" = some (.machine machine) := by
    rw [hsplit] at hcourse
    obtain ⟨t, hbefore, hdoes, -⟩ := hcourse.split
    rw [hdoes.before]
    dsimp only
    rw [(hbefore.unmarked h₀).2]
    rfl
  refine ⟨_, x, _, a, hsplit, invokes_of_invokesPlainly hsource hinvokes, ha, hsettings, ?_, y, ?_,
    begins_of_isBeginning hbegins⟩
  · intro y hy b hb
    have hnone := List.all_eq_true.mp hnew y hy
    rw [hb, Option.all_some] at hnone
    exact Option.isNone_iff_eq_none.mp hnone
  · rw [← hsplit]
    exact hy

/-- Whether an interpreter takes the event `GO` only. -/
def goes (n : Nat) (ms : List Moment) : Bool :=
  match heeded n ms with
  | [e] => e.name == "GO" && e.data.isNull
  | _ => false

theorem heeded_of_goes (h : goes n ms = true) :
  heeded n ms = [.bare "GO"]
  := by
  rw [goes] at h
  split at h
  · next e htaken =>
    obtain ⟨hname, hdata⟩ := Bool.and_eq_true_iff.mp h
    obtain ⟨name, data⟩ := e
    have hdata : data = .null := eq_null_of_isNull hdata
    have hname : name = "GO" := eq_of_beq hname
    rw [htaken, hname, hdata]
    rfl
  · cases h

/-- A machine that goes on at once. -/
def passing : Document.Machine where
  root := .node { initial := some "s" }
    [("s", .node { always := [{ targets := ["t"] }] } []), ("t", .node {} [])]

/-- A machine with a bound of one microstep starts when it is invoked, and fails to start alone. -/
theorem answers_otherwise_passing :
  ∃ chart child, Chart.ofDocument attending = .ok chart ∧ Chart.ofDocument passing = .ok child ∧
    ∃ machine, machine = (Machine.ofChart child).withLimit 1 ∧
      ∃ xs x ys s ns t a, (ofInvoked chart machine).Fresh ∧ (ofAlone machine).Fresh ∧
        Course (ofInvoked chart machine) (xs ++ x :: ys) s ∧ x.Invokes root machine 1 ∧
        x.before.actor? root = some a ∧ a.settings = {} ∧
        (∀ y ∈ ys, ∀ b, y.before.actor? 1 = some b → b.resume = none) ∧
        Course (ofAlone machine) ns t ∧ (∀ z ∈ ns, z.Bears root machine) ∧
        heeded 1 (xs ++ x :: ys) = heeded root ns ∧ (∃ y ∈ xs ++ x :: ys, y.Begins 1) ∧
        (∀ y ∈ xs ++ x :: ys, ∀ fault, ¬ y.FailsToStart 1 fault) ∧
        (∃ z ∈ ns, ∃ fault, z.FailsToStart root fault) ∧
        (s.state? 1).isSome = true ∧ t.state? root = none
  := by
  obtain ⟨chart, h, hp⟩ := Outcome.exists_of_any (x := Chart.ofDocument attending)
    (p := fun chart => (Chart.ofDocument passing).toOption.any (fun child =>
      let machine := (Machine.ofChart child).withLimit 1
      let run := (ofInvoked chart machine).attendance []
      let lone := (ofAlone machine).attendance []
      isCompany run 4 = true ∧ (heeded 1 run.1).isEmpty = true ∧
        (heeded root lone.1).isEmpty = true ∧
        (machine.withLimit Machine.defaultLimit).initial.toOption.isSome = true ∧
        lone.1.any (isFailedStart root) = true ∧ (run.2.state? 1).isSome = true ∧
        (lone.2.state? root).isNone = true))
    (by decide +kernel)
  obtain ⟨child, hchild, hp⟩ := Outcome.exists_of_any hp
  obtain ⟨hcompany, htaken, hlone, hstarts, hfailed, hstate, hnone⟩ := of_decide_eq_true hp
  have h₀ : (ofInvoked chart ((Machine.ofChart child).withLimit 1)).Fresh :=
    fresh_ofCatalog ⟨attending, h⟩ ⟨passing, hchild⟩
  have h₁ : (ofAlone ((Machine.ofChart child).withLimit 1)).Fresh :=
    fresh_ofCatalog ⟨passing, hchild⟩ ⟨passing, hchild⟩
  obtain ⟨xs, x, ys, a, hsplit, hinvokes, ha, hsettings, hnew, hbegun⟩ :=
    company_of_isCompany h₀ hcompany
  obtain ⟨z, hz, hfailed⟩ := List.any_eq_true.mp hfailed
  have hcourse := course_attendance (ofInvoked chart ((Machine.ofChart child).withLimit 1)) []
  rw [hsplit] at hcourse htaken
  refine ⟨chart, child, h, hchild, _, rfl, xs, x, ys, _, _, _, a, h₀, h₁, hcourse, hinvokes, ha,
    hsettings, hnew, course_attendance _ [], ?_, ?_, hbegun, ?_,
    ⟨z, hz, failsToStart_of_isFailedStart hfailed⟩, hstate, Option.isNone_iff_eq_none.mp hnone⟩
  · intro z hz b hb
    obtain ⟨b', hb', hbears, -⟩ := bears_attendance [] z hz
    rw [hb, Option.some.injEq] at hb'
    subst hb'
    exact hbears
  · rw [List.isEmpty_iff.mp htaken, List.isEmpty_iff.mp hlone]
  · intro y hy fault hfails
    have hchild := hcourse.invoked_bears h₀ hinvokes ha hnew y hy
    rw [hsettings] at hchild
    have hfault := (hchild.failsToStart_iff hfails.begins).mp hfails
    change ((Machine.ofChart child).withLimit 1 |>.withLimit Machine.defaultLimit).initial = _
      at hfault
    rw [hfault] at hstarts
    cases hstarts

theorem answers_alone_concluding :
  ∃ chart child, Chart.ofDocument attending = .ok chart ∧ Chart.ofDocument concluding = .ok child ∧
    ∃ machine, machine = (Machine.ofChart child).withLimit 4 ∧
      ∃ xs x ys s ns t a, (ofInvoked chart machine).Fresh ∧ (ofAlone machine).Fresh ∧
        Course (ofInvoked chart machine) (xs ++ x :: ys) s ∧ x.Invokes root machine 1 ∧
        x.before.actor? root = some a ∧ a.settings = {} ∧
        (∀ y ∈ ys, ∀ b, y.before.actor? 1 = some b → b.resume = none) ∧
        Course (ofAlone machine) ns t ∧ (∀ z ∈ ns, z.Bears root machine) ∧
        machine.cautious.TakesAll (heeded 1 (xs ++ x :: ys)) ∧
        heeded 1 (xs ++ x :: ys) = [.bare "GO"] ∧ heeded root ns = [.bare "GO"] ∧
        (∃ y ∈ xs ++ x :: ys, y.Begins 1) ∧ (∃ z ∈ ns, z.Begins root) ∧
        s.state? 1 = t.state? root ∧ (t.state? root).any (fun c => c.done) = true
  := by
  obtain ⟨chart, h, hp⟩ := Outcome.exists_of_any (x := Chart.ofDocument attending)
    (p := fun chart => (Chart.ofDocument concluding).toOption.any (fun child =>
      let machine := (Machine.ofChart child).withLimit 4
      let run := (ofInvoked chart machine).attendance ["GO"]
      let lone := (ofAlone machine).attendance ["GO"]
      isCompany run 4 = true ∧ goes 1 run.1 = true ∧ goes root lone.1 = true ∧
        lone.1.any (isBeginning root) = true ∧
        machine.cautious.initial.toOption.any (fun s =>
          (machine.cautious.transition s (.bare "GO")).toOption.isSome) = true ∧
        (lone.2.state? root).any (fun c => c.done) = true))
    (by decide +kernel)
  obtain ⟨child, hchild, hp⟩ := Outcome.exists_of_any hp
  obtain ⟨hcompany, hgoes, hlone, hbegins, htakes, hdone⟩ := of_decide_eq_true hp
  have h₀ : (ofInvoked chart ((Machine.ofChart child).withLimit 4)).Fresh :=
    fresh_ofCatalog ⟨attending, h⟩ ⟨concluding, hchild⟩
  have h₁ : (ofAlone ((Machine.ofChart child).withLimit 4)).Fresh :=
    fresh_ofCatalog ⟨concluding, hchild⟩ ⟨concluding, hchild⟩
  obtain ⟨xs, x, ys, a, hsplit, hinvokes, ha, hsettings, hnew, hbegun⟩ :=
    company_of_isCompany h₀ hcompany
  obtain ⟨z, hz, hbegins⟩ := List.any_eq_true.mp hbegins
  have hlonely : ∃ z ∈ ((ofAlone ((Machine.ofChart child).withLimit 4)).attendance ["GO"]).1,
    z.Begins root := ⟨z, hz, begins_of_isBeginning hbegins⟩
  have hcourse :=
    course_attendance (ofInvoked chart ((Machine.ofChart child).withLimit 4)) ["GO"]
  rw [hsplit] at hcourse hgoes
  have htaken := heeded_of_goes hgoes
  have hsame := heeded_of_goes hlone
  have hbears : ∀ z ∈ ((ofAlone ((Machine.ofChart child).withLimit 4)).attendance ["GO"]).1,
      z.Bears root ((Machine.ofChart child).withLimit 4) := by
    intro z hz b hb
    obtain ⟨b', hb', hbears, -⟩ := bears_attendance ["GO"] z hz
    rw [hb, Option.some.injEq] at hb'
    subst hb'
    exact hbears
  have hcautious : ((Machine.ofChart child).withLimit 4).cautious.TakesAll
      (heeded 1 (xs ++ x :: ys)) := by
    obtain ⟨s₀, hinitial, hnext⟩ := Outcome.exists_of_any htakes
    obtain ⟨s, hs⟩ := Option.isSome_iff_exists.mp hnext
    refine ⟨s₀, s, hinitial, ?_⟩
    rw [htaken, List.foldlM_cons]
    cases hstep : ((Machine.ofChart child).withLimit 4).cautious.transition s₀ (.bare "GO") with
    | ok s' =>
      rw [hstep] at hs
      cases hs
      rfl
    | error fault =>
      rw [hstep] at hs
      cases hs
  obtain ⟨-, -, halike⟩ := hcourse.answers_alone h₀ hinvokes ha hsettings hnew h₁
    (course_attendance _ ["GO"]) hbears
  exact ⟨chart, child, h, hchild, _, rfl, xs, x, ys, _, _, _, a, h₀, h₁, hcourse, hinvokes, ha,
    hsettings, hnew, course_attendance _ ["GO"], hbears, hcautious, htaken, hsame, hbegun, hlonely,
    (halike (Or.inr hcautious)).2 hbegun hlonely (htaken.trans hsame.symm), hdone⟩

end Session

end Statechart
