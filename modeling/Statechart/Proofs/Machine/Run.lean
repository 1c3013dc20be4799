import Mathlib.Data.List.Induction
import Mathlib.Tactic.Common
import Statechart.Machine
import Statechart.Proofs.Outcome

/-!
# Runs

A run of a machine lists the microsteps behind a snapshot.  `Settles` relates a resolution
to the one it settles to, `Moves` a snapshot to the next one, and `Run` leads from the start
of the machine; what the operations compute has a run (`exists_run`).  A property of the
active nodes and the histories that every microstep keeps holds of every snapshot that is
reached (`Reaches.preserves`).
-/

namespace Statechart

namespace Progress

/-- A microstep of a reaction: where it starts, its transitions and its trigger. -/
structure Step where
  before : Progress
  transitions : List Transition
  trigger : Event

/-- Where a microstep ends. -/
def Step.after (chart : Chart) (imps : Implementations) (x : Step) : Progress :=
  microstep chart imps x.transitions x.trigger x.before

section

variable (chart : Chart) (imps : Implementations)

/-- Whether the transitions of a microstep are those that some event takes, or those that
wait for no event. -/
def Step.Enabled (x : Step) : Prop :=
  ∃ event eventless, x.transitions = x.before.enabled chart imps event eventless

/-- The microsteps that settle a resolution under an event. -/
inductive Settles : Event → Progress → List Step → Progress → Prop where
  | done {event p} (h : p.done = true) : Settles event p [] p
  | idle {event p} (h : p.done = false)
      (hnone : p.upcoming chart imps event p.queue = none) :
      Settles event p [] { p with queue := [] }
  | step {event p next xs p'} (h : p.done = false)
      (hnext : p.upcoming chart imps event p.queue = some next)
      (hrest : Settles next.trigger
        (Step.after chart imps ⟨{ p with queue := next.queue }, next.transitions, next.trigger⟩)
        xs p') :
      Settles event p
        (⟨{ p with queue := next.queue }, next.transitions, next.trigger⟩ :: xs) p'

end

variable {chart : Chart} {imps : Implementations} {event : Event} {p p' : Progress}
  {xs : List Step}

/-- What comes next are enabled transitions. -/
theorem enabled_of_upcoming {current : Event} {queue : List Event} {next : Upcoming}
    (h : p.upcoming chart imps current queue = some next) :
  ∃ event eventless, next.transitions = p.enabled chart imps event eventless
  := by
  induction queue generalizing current with
  | nil =>
    unfold upcoming at h
    split at h
    · cases h
    · cases h
      exact ⟨current, true, rfl⟩
  | cons event rest ih =>
    unfold upcoming at h
    split at h
    · split at h
      · apply ih h
      · cases h
        exact ⟨event, false, rfl⟩
    · cases h
      exact ⟨current, true, rfl⟩

/-- The transitions of what comes next are enabled where the queue is shorter. -/
theorem enabled_step {current : Event} {queue : List Event} {next : Upcoming}
    (h : p.upcoming chart imps current queue = some next) :
  Step.Enabled chart imps ⟨{ p with queue := next.queue }, next.transitions, next.trigger⟩
  := by
  obtain ⟨event, eventless, h⟩ := enabled_of_upcoming h
  exact ⟨event, eventless, h⟩

/-- A resolution that settles does so by microsteps. -/
theorem exists_settles {limit budget : Nat}
    (h : settle chart imps limit budget event p = .ok p') :
  ∃ xs, Settles chart imps event p xs p'
  := by
  induction budget generalizing event p with
  | zero =>
    unfold settle at h
    split at h
    · next hdone =>
      cases h
      exact ⟨[], .done hdone⟩
    · next hdone =>
      split at h
      · next hnone =>
        cases h
        exact ⟨[], .idle (by simpa using hdone) hnone⟩
      · cases h
  | succ budget ih =>
    unfold settle at h
    split at h
    · next hdone =>
      cases h
      exact ⟨[], .done hdone⟩
    · next hdone =>
      split at h
      · next hnone =>
        cases h
        exact ⟨[], .idle (by simpa using hdone) hnone⟩
      · next next hnext =>
        obtain ⟨xs, hxs⟩ := ih h
        exact ⟨_, .step (by simpa using hdone) hnext hxs⟩

/-- A resolution with nothing to take settles at once. -/
theorem settle_of_idle {limit budget : Nat} (hdone : p.done = false)
    (hnone : p.upcoming chart imps event p.queue = none) :
  settle chart imps limit budget event p = .ok { p with queue := [] }
  := by
  unfold settle
  rw [if_neg (by simp [hdone]), hnone]

/-- The microsteps of a settling resolution are enabled. -/
theorem Settles.enabled (h : Settles chart imps event p xs p') :
  ∀ x ∈ xs, x.Enabled chart imps
  := by
  induction h with
  | done h => simp
  | idle h hnone => simp
  | step h hnext hrest ih =>
    intro x hx
    rcases List.mem_cons.mp hx with rfl | hx
    · apply enabled_step hnext
    · apply ih x hx

/-- What every enabled microstep keeps, whatever waits in the queue, holds of what a resolution
settles to. -/
theorem Settles.preserves {P : Progress → Prop} (h : Settles chart imps event p xs p')
    (hqueue : ∀ p queue, P p → P { p with queue := queue })
    (hstep : ∀ x : Step, x.Enabled chart imps → x.before.done = false → P x.before →
      P (x.after chart imps))
    (hp : P p) :
  P p'
  := by
  induction h with
  | done h => exact hp
  | idle h hnone => apply hqueue _ [] hp
  | step h hnext hrest ih => apply ih (hstep _ (enabled_step hnext) h (hqueue _ _ hp))

/-- If an enabled microstep keeps a property exactly under a condition, the property holds
all along the settling of a resolution exactly if all microsteps meet the condition. -/
theorem Settles.forall_after_iff {P : NodeSet → History → Prop} {K : Step → Prop}
    (h : Settles chart imps event p xs p')
    (hkeeps : ∀ x ∈ xs, x.Enabled chart imps → P x.before.configuration x.before.history →
      (P (x.after chart imps).configuration (x.after chart imps).history ↔ K x))
    (hp : P p.configuration p.history) :
  ((∀ x ∈ xs, P (x.after chart imps).configuration (x.after chart imps).history) ↔
      ∀ x ∈ xs, K x) ∧
    ((∀ x ∈ xs, K x) → P p'.configuration p'.history)
  := by
  induction h with
  | done h => simpa using hp
  | idle h hnone => simpa using hp
  | step h hnext hrest ih =>
    have hfirst := hkeeps _ List.mem_cons_self (enabled_step hnext) hp
    have ih := ih (fun x hx => hkeeps x (List.mem_cons_of_mem _ hx))
    constructor
    · rw [List.forall_mem_cons, List.forall_mem_cons, hfirst]
      apply and_congr_right (fun hk => (ih (hfirst.mpr hk)).1)
    · intro hall
      obtain ⟨hk, hall⟩ := List.forall_mem_cons.mp hall
      exact (ih (hfirst.mpr hk)).2 hall

end Progress

namespace Machine

open Progress

/-- Where a machine starts: its default configuration is entered. -/
def entry (m : Machine) : Progress :=
  enter m.chart m.implementations .init
    { configuration := [], history := [], collected := { context := m.context } }
    (m.chart.addDefaults Chart.root [])

/-- The microsteps behind the next snapshot after an event. -/
inductive Moves (m : Machine) (s : Snapshot) (event : Event) : List Step → Snapshot → Prop where
  | rest : Moves m s event [] (s.unchanged event)
  | react {xs p} (hsettles : Settles m.chart m.implementations event
      (Step.after m.chart m.implementations
        ⟨resume s, (resume s).enabled m.chart m.implementations event false, event⟩) xs p) :
      Moves m s event
        (⟨resume s, (resume s).enabled m.chart m.implementations event false, event⟩ :: xs)
        (m.snapshotOf event (some s) p)

/-- The snapshots that a machine reaches from one by transitions. -/
inductive Reaches (m : Machine) (s₀ : Snapshot) : Snapshot → Prop where
  | refl : Reaches m s₀ s₀
  | step {s s' event} (h : Reaches m s₀ s) (hstep : m.transition s event = .ok s') :
      Reaches m s₀ s'

/-- The snapshots that a machine starts from. -/
inductive Starts (m : Machine) : Snapshot → Prop where
  | initial {s} (h : m.initial = .ok s) : Starts m s
  | restored {s persisted} (h : m.restore persisted = .ok s) : Starts m s

/-- The microsteps from the start of a machine, or from a restored snapshot, to a snapshot. -/
inductive Run (m : Machine) : List Step → Snapshot → Prop where
  | initial {xs p} (hsettles : Settles m.chart m.implementations .init m.entry xs p) :
      Run m xs (m.snapshotOf .init none p)
  | restored {s persisted} (h : m.restore persisted = .ok s) : Run m [] s
  | step {xs ys s s' event} (h : Run m xs s) (hmoves : m.Moves s event ys s') :
      Run m (xs ++ ys) s'

variable {m : Machine} {s s₀ s' : Snapshot} {event : Event} {xs : List Step}

/-- A snapshot that is done, or has nothing to take, stays as it is. -/
theorem transition_of_rest (h : s.done = true ∨
    (resume s).enabled m.chart m.implementations event false = []) :
  m.transition s event = .ok (s.unchanged event)
  := by
  rw [transition]
  rcases h with hdone | hnil
  · rw [if_pos hdone]
  · dsimp only
    rw [hnil, ite_self]

/-- A snapshot that takes transitions reacts with these. -/
theorem transition_of_react (hdone : s.done = false)
    (hne : (resume s).enabled m.chart m.implementations event false ≠ []) :
  m.transition s event =
    ((resume s).react m.chart m.implementations m.limit
      ((resume s).enabled m.chart m.implementations event false) event).map
        (m.snapshotOf event (some s))
  := by
  rw [transition, hdone, if_neg Bool.false_ne_true]
  dsimp only
  split
  · next hnil => exact absurd hnil hne
  · rfl

/-- A snapshot that takes transitions moves by a microstep under these. -/
theorem exists_moves_react (h : m.transition s event = .ok s') (hdone : s.done = false)
    (hne : (resume s).enabled m.chart m.implementations event false ≠ []) :
  ∃ xs, m.Moves s event
    (⟨resume s, (resume s).enabled m.chart m.implementations event false, event⟩ :: xs) s'
  := by
  rw [transition_of_react hdone hne] at h
  obtain ⟨p, hp, rfl⟩ := Outcome.map_eq_ok.mp h
  unfold react at hp
  split at hp
  · cases hp
  · obtain ⟨xs, hxs⟩ := exists_settles hp
    exact ⟨xs, .react hxs⟩

theorem exists_moves (h : m.transition s event = .ok s') :
  ∃ xs, m.Moves s event xs s'
  := by
  by_cases hrest : s.done = true ∨
      (resume s).enabled m.chart m.implementations event false = []
  · rw [transition_of_rest hrest] at h
    cases h
    exact ⟨[], .rest⟩
  · rw [not_or, Bool.not_eq_true] at hrest
    obtain ⟨xs, hxs⟩ := exists_moves_react h hrest.1 hrest.2
    exact ⟨_, hxs⟩

/-- What the start of a machine settles to. -/
theorem exists_settles_initial (h : m.initial = .ok s) :
  ∃ xs p, Settles m.chart m.implementations .init m.entry xs p ∧ s = m.snapshotOf .init none p
  := by
  rw [initial] at h
  obtain ⟨p, hp, rfl⟩ := Outcome.map_eq_ok.mp h
  unfold start at hp
  split at hp
  · cases hp
  · obtain ⟨xs, hxs⟩ := exists_settles hp
    exact ⟨xs, p, hxs, rfl⟩

/-- Every snapshot that a machine reaches has a run. -/
theorem exists_run (hstarts : m.Starts s₀) (h : m.Reaches s₀ s) :
  ∃ xs, m.Run xs s
  := by
  induction h with
  | refl =>
    cases hstarts with
    | initial h =>
      obtain ⟨xs, p, hxs, rfl⟩ := exists_settles_initial h
      exact ⟨xs, .initial hxs⟩
    | restored h => exact ⟨[], .restored h⟩
  | step h hstep ih =>
    obtain ⟨xs, hxs⟩ := ih
    obtain ⟨ys, hys⟩ := exists_moves hstep
    exact ⟨xs ++ ys, .step hxs hys⟩

/-- A snapshot is reached exactly if a sequence of events leads to it. -/
theorem reaches_iff :
  m.Reaches s₀ s ↔ ∃ events : List Event, events.foldlM m.transition s₀ = .ok s
  := by
  constructor
  · intro h
    induction h with
    | refl => exact ⟨[], rfl⟩
    | @step _ _ event h hstep ih =>
      obtain ⟨events, hevents⟩ := ih
      use events ++ [event]
      rw [List.foldlM_append, hevents]
      apply Outcome.bind_eq_ok.mpr ⟨_, rfl, Outcome.bind_eq_ok.mpr ⟨_, hstep, rfl⟩⟩
  · rintro ⟨events, hevents⟩
    induction events using List.reverseRecOn generalizing s with
    | nil =>
      cases hevents
      exact .refl
    | append_singleton events event ih =>
      rw [List.foldlM_append] at hevents
      obtain ⟨s', hs', hevent⟩ := Outcome.bind_eq_ok.mp hevents
      obtain ⟨s'', hstep, hlast⟩ := Outcome.bind_eq_ok.mp hevent
      cases hlast
      exact .step (ih hs') hstep

/-- The microsteps of a run are enabled. -/
theorem Run.enabled (h : m.Run xs s) :
  ∀ x ∈ xs, x.Enabled m.chart m.implementations
  := by
  induction h with
  | initial hsettles => apply hsettles.enabled
  | restored h => simp
  | @step _ _ _ _ event h hmoves ih =>
    rw [List.forall_mem_append]
    use ih
    cases hmoves with
    | rest => simp
    | react hsettles =>
      rw [List.forall_mem_cons]
      exact ⟨⟨event, false, rfl⟩, hsettles.enabled⟩

/-! ### Reactions of one microstep -/

/-- The microstep with which a snapshot reacts to an event. -/
def reaction (m : Machine) (s : Snapshot) (event : Event) : Step :=
  ⟨resume s, (resume s).enabled m.chart m.implementations event false, event⟩

/-- The snapshot after a reaction of one microstep. -/
def reacted (m : Machine) (s : Snapshot) (event : Event) : Snapshot :=
  m.snapshotOf event (some s)
    { (m.reaction s event).after m.chart m.implementations with queue := [] }

/-- A snapshot moves by one microstep if this leaves nothing to take. -/
theorem moves_reacted
    (hdone : ((m.reaction s event).after m.chart m.implementations).done = false)
    (hnone : ((m.reaction s event).after m.chart m.implementations).upcoming m.chart
      m.implementations event ((m.reaction s event).after m.chart m.implementations).queue =
        none) :
  m.Moves s event [m.reaction s event] (m.reacted s event)
  := .react (.idle hdone hnone)

/-- The initial snapshot, if entering the default configuration leaves nothing to take. -/
theorem initial_of_idle (hlimit : m.limit ≠ 0) (hdone : m.entry.done = false)
    (hnone : m.entry.upcoming m.chart m.implementations .init m.entry.queue = none) :
  m.initial = .ok (m.snapshotOf .init none { m.entry with queue := [] })
  := by
  obtain ⟨budget, hbudget⟩ := Nat.exists_eq_succ_of_ne_zero hlimit
  rw [initial, hbudget]
  unfold start
  exact congrArg (Except.map (m.snapshotOf .init none)) (settle_of_idle hdone hnone)

/-- The next snapshot, if the microstep of a reaction leaves nothing to take. -/
theorem transition_of_idle (hlimit : m.limit ≠ 0) (hs : s.done = false)
    (hne : (m.reaction s event).transitions ≠ [])
    (hdone : ((m.reaction s event).after m.chart m.implementations).done = false)
    (hnone : ((m.reaction s event).after m.chart m.implementations).upcoming m.chart
      m.implementations event ((m.reaction s event).after m.chart m.implementations).queue =
        none) :
  m.transition s event = .ok (m.reacted s event)
  := by
  obtain ⟨budget, hbudget⟩ := Nat.exists_eq_succ_of_ne_zero hlimit
  rw [transition_of_react hs hne, hbudget]
  exact congrArg (Except.map (m.snapshotOf event (some s))) (settle_of_idle hdone hnone)

/-! ### Invariants -/

/-- A restored snapshot has no recorded histories, and its configuration is named by its
persisted value. -/
theorem restore_eq_ok {persisted : Persisted} (h : m.restore persisted = .ok s) :
  m.chart.configurationOf persisted.value = .ok s.configuration ∧ s.history = []
  := by
  rw [restore] at h
  obtain ⟨configuration, hconfiguration, h⟩ := Outcome.bind_eq_ok.mp h
  cases h
  exact ⟨hconfiguration, rfl⟩

section

variable {P : NodeSet → History → Prop} {K : Step → Prop}

theorem Moves.forall_after_iff (h : m.Moves s event xs s')
    (hkeeps : ∀ x ∈ xs, x.Enabled m.chart m.implementations →
      P x.before.configuration x.before.history →
      (P (x.after m.chart m.implementations).configuration
        (x.after m.chart m.implementations).history ↔ K x))
    (hs : P s.configuration s.history) :
  ((∀ x ∈ xs, P (x.after m.chart m.implementations).configuration
      (x.after m.chart m.implementations).history) ↔ ∀ x ∈ xs, K x) ∧
    ((∀ x ∈ xs, K x) → P s'.configuration s'.history)
  := by
  cases h with
  | rest => exact ⟨by simp, fun _ => hs⟩
  | react hsettles =>
    have hfirst := hkeeps _ List.mem_cons_self ⟨event, false, rfl⟩ hs
    have hrest := hsettles.forall_after_iff (fun x hx => hkeeps x (List.mem_cons_of_mem _ hx))
    constructor
    · rw [List.forall_mem_cons, List.forall_mem_cons, hfirst]
      apply and_congr_right (fun hk => (hrest (hfirst.mpr hk)).1)
    · intro hall
      obtain ⟨hk, hall⟩ := List.forall_mem_cons.mp hall
      exact (hrest (hfirst.mpr hk)).2 hall

/-- If a microstep keeps a property exactly under a condition, the property holds all along
a run exactly if all microsteps meet the condition, and then it holds of the last
snapshot. -/
theorem Run.forall_after_iff (h : m.Run xs s)
    (hentry : P m.entry.configuration m.entry.history)
    (hrestore : ∀ {persisted s}, m.restore persisted = .ok s → P s.configuration s.history)
    (hkeeps : ∀ x ∈ xs, x.Enabled m.chart m.implementations →
      P x.before.configuration x.before.history →
      (P (x.after m.chart m.implementations).configuration
        (x.after m.chart m.implementations).history ↔ K x)) :
  ((∀ x ∈ xs, P (x.after m.chart m.implementations).configuration
      (x.after m.chart m.implementations).history) ↔ ∀ x ∈ xs, K x) ∧
    ((∀ x ∈ xs, K x) → P s.configuration s.history)
  := by
  induction h with
  | initial hsettles => apply hsettles.forall_after_iff hkeeps hentry
  | restored h => simpa using hrestore h
  | step h hmoves ih =>
    obtain ⟨hiff, hlast⟩ := ih (fun x hx => hkeeps x (List.mem_append_left _ hx))
    have hmoves := hmoves.forall_after_iff (fun x hx => hkeeps x (List.mem_append_right _ hx))
    constructor
    · rw [List.forall_mem_append, List.forall_mem_append, hiff]
      apply and_congr_right (fun hk => (hmoves (hlast hk)).1)
    · intro hall
      obtain ⟨hk, hall⟩ := List.forall_mem_append.mp hall
      exact (hmoves (hlast hk)).2 hall

/-- What every enabled microstep keeps holds where the microsteps of a run start. -/
theorem Run.forall_before (h : m.Run xs s)
    (hentry : P m.entry.configuration m.entry.history)
    (hrestore : ∀ {persisted s}, m.restore persisted = .ok s → P s.configuration s.history)
    (hstep : ∀ x : Step, x.Enabled m.chart m.implementations →
      P x.before.configuration x.before.history →
      P (x.after m.chart m.implementations).configuration
        (x.after m.chart m.implementations).history) :
  ∀ x ∈ xs, P x.before.configuration x.before.history
  := by
  have hafter := h.forall_after_iff hentry hrestore
    (fun x _ henabled hx => iff_true_intro (hstep x henabled hx))
  have hbefore := h.forall_after_iff hentry hrestore
    (K := fun x => P x.before.configuration x.before.history)
    (fun x _ henabled hx => iff_of_true (hstep x henabled hx) hx)
  apply hbefore.1.mp (hafter.1.mpr (fun x _ => trivial))

/-- What every enabled microstep keeps holds of every snapshot that is reached. -/
theorem Reaches.preserves (h : m.Reaches s₀ s) (hstarts : m.Starts s₀)
    (hentry : P m.entry.configuration m.entry.history)
    (hrestore : ∀ {persisted s}, m.restore persisted = .ok s → P s.configuration s.history)
    (hstep : ∀ x : Step, x.Enabled m.chart m.implementations →
      P x.before.configuration x.before.history →
      P (x.after m.chart m.implementations).configuration
        (x.after m.chart m.implementations).history) :
  P s.configuration s.history
  := by
  obtain ⟨xs, hxs⟩ := exists_run hstarts h
  have hiff := hxs.forall_after_iff hentry hrestore
    (fun x _ henabled hx => iff_true_intro (hstep x henabled hx))
  apply hiff.2 (fun x _ => trivial)

end

end Machine

end Statechart
