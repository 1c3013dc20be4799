import Statechart.Chart.Compile
import Statechart.Proofs.Machine.Run

/-!
# The bound of the microsteps

`Progress.settling` lists the microsteps that a resolution takes while its budget lasts, and
the result of the resolution is read off them (`settle_eq`).  Under a larger budget the
microsteps only go on where they stopped under the smaller one (`settling_take`).  So the
bound of a machine cuts its reactions off, but does not change them
(`transition_of_limits`).
-/

namespace Statechart

namespace Progress

section

variable (chart : Chart) (imps : Implementations)

/-- The microsteps that a resolution takes under an event, of which there may be `budget`. -/
def settling : Nat → Event → Progress → List Step
  | 0, _, _ => []
  | budget + 1, current, p =>
    if p.done then []
    else
      match p.upcoming chart imps current p.queue with
      | none => []
      | some next =>
        let x : Step := ⟨{ p with queue := next.queue }, next.transitions, next.trigger⟩
        x :: settling budget next.trigger (x.after chart imps)

/-- Where microsteps lead that begin under an event: the last trigger, and where the last one
ends. -/
def ending (start : Event × Progress) (xs : List Step) : Event × Progress :=
  xs.foldl (fun _ x => (x.trigger, x.after chart imps)) start

/-- The result of a resolution that takes no further microstep under an event: it is settled,
or else the bound `limit` is exceeded. -/
def conclusion (limit : Nat) (current : Event) (p : Progress) : Except Fault Progress :=
  if p.done then .ok p
  else
    match p.upcoming chart imps current p.queue with
    | none => .ok { p with queue := [] }
    | some next => .error (.microstepLimit limit next.trigger.name)

end

variable {chart : Chart} {imps : Implementations} {event : Event} {p p' : Progress}
  {limit limit' budget budget' : Nat} {fault : Fault}

/-- The result of a resolution is the conclusion where its microsteps lead. -/
theorem settle_eq (limit budget : Nat) (event : Event) (p : Progress) :
  settle chart imps limit budget event p =
    conclusion chart imps limit
      (ending chart imps (event, p) (settling chart imps budget event p)).1
      (ending chart imps (event, p) (settling chart imps budget event p)).2
  := by
  induction budget generalizing event p with
  | zero =>
    unfold settle
    rfl
  | succ budget ih =>
    unfold settle settling
    by_cases hdone : p.done = true
    · simp [hdone, ending, conclusion]
    · cases hnext : p.upcoming chart imps event p.queue with
      | none => simp [hdone, hnext, ending, conclusion]
      | some next =>
        rw [if_neg hdone, if_neg hdone]
        apply ih

theorem length_settling_le (budget : Nat) (event : Event) (p : Progress) :
  (settling chart imps budget event p).length ≤ budget
  := by
  induction budget generalizing event p with
  | zero => apply Nat.le_refl
  | succ budget ih =>
    unfold settling
    split
    · apply Nat.zero_le
    · split
      · apply Nat.zero_le
      · apply Nat.succ_le_succ
        apply ih

/-- The microsteps under a budget are the first ones of those under a larger budget. -/
theorem settling_take (h : budget ≤ budget') (event : Event) (p : Progress) :
  settling chart imps budget event p = (settling chart imps budget' event p).take budget
  := by
  induction budget generalizing budget' event p with
  | zero => rw [List.take_zero, settling]
  | succ budget ih =>
    obtain ⟨budget', rfl⟩ := Nat.exists_eq_succ_of_ne_zero (Nat.ne_zero_of_lt h)
    unfold settling
    split
    · rfl
    · split
      · rfl
      · rw [List.take_succ_cons, ← ih (Nat.le_of_succ_le_succ h)]

/-- A resolution that settles does so by its microsteps. -/
theorem settles_settling (h : settle chart imps limit budget event p = .ok p') :
  Settles chart imps event p (settling chart imps budget event p) p'
  := by
  induction budget generalizing event p with
  | zero =>
    rw [settle] at h
    split at h
    · next hdone =>
      cases h
      exact .done hdone
    · next hdone =>
      split at h
      · next hnone =>
        cases h
        exact .idle (by simpa using hdone) hnone
      · cases h
  | succ budget ih =>
    rw [settle] at h
    rw [settling]
    by_cases hdone : p.done = true
    · rw [if_pos hdone] at h ⊢
      cases h
      exact .done hdone
    · rw [if_neg hdone] at h ⊢
      cases hnext : p.upcoming chart imps event p.queue with
      | none =>
        rw [hnext] at h
        cases h
        exact .idle (by simpa using hdone) hnext
      | some next =>
        rw [hnext] at h
        exact .step (by simpa using hdone) hnext (ih h)

/-- A resolution that microsteps settle settles under every budget that they keep to. -/
theorem Settles.settle_eq {xs : List Step} (h : Settles chart imps event p xs p')
    (hbudget : xs.length ≤ budget) :
  settle chart imps limit budget event p = .ok p'
  := by
  induction h generalizing budget with
  | done hdone =>
    rw [settle, if_pos hdone]
  | idle hdone hnone => apply settle_of_idle hdone hnone
  | step hdone hnext hrest ih =>
    obtain ⟨budget, rfl⟩ := Nat.exists_eq_succ_of_ne_zero (Nat.ne_zero_of_lt hbudget)
    rw [settle, if_neg (by simp [hdone]), hnext]
    apply ih (Nat.le_of_succ_le_succ hbudget)

/-- A resolution that settles under a budget settles to the same under a larger one. -/
theorem settle_of_le (h : budget ≤ budget')
    (hok : settle chart imps limit budget event p = .ok p') :
  settle chart imps limit' budget' event p = .ok p'
  := (settles_settling hok).settle_eq (Nat.le_trans (length_settling_le budget event p) h)

/-- A resolution fails only when it exceeds the bound, and then its budget is used up. -/
theorem settle_eq_error (h : settle chart imps limit budget event p = .error fault) :
  (∃ name, fault = .microstepLimit limit name) ∧
    (settling chart imps budget event p).length = budget
  := by
  induction budget generalizing event p with
  | zero =>
    unfold settle at h
    split at h
    · cases h
    · split at h
      · cases h
      · cases h
        exact ⟨⟨_, rfl⟩, rfl⟩
  | succ budget ih =>
    unfold settle at h
    split at h
    · cases h
    · next hdone =>
      split at h
      · cases h
      · next next hnext =>
        obtain ⟨hfault, hlength⟩ := ih h
        use hfault
        unfold settling
        rw [if_neg hdone, hnext]
        exact congrArg Nat.succ hlength

end Progress

namespace Machine

open Progress

/-- The microsteps that a machine takes before it answers an event. -/
def microsteps (m : Machine) (s : Snapshot) (event : Event) : List Step :=
  let x := m.reaction s event
  if s.done || x.transitions.isEmpty then []
  else
    match m.limit with
    | 0 => []
    | budget + 1 =>
      x :: settling m.chart m.implementations budget event
        (x.after m.chart m.implementations)

/-- The microsteps that a machine takes before its first snapshot; the entry of the default
configuration, which comes ahead of them, counts as one more. -/
def firstMicrosteps (m : Machine) : List Step :=
  settling m.chart m.implementations (m.limit - 1) .init m.entry

/-- The answer of a machine to an event once it has taken microsteps. -/
def answerAfter (m : Machine) (s : Snapshot) (event : Event) (xs : List Step) :
    Except Fault Snapshot :=
  if xs.isEmpty then .ok (s.unchanged event)
  else
    let (current, p) := ending m.chart m.implementations (event, resume s) xs
    (conclusion m.chart m.implementations m.limit current p).map (m.snapshotOf event (some s))

/-- The first snapshot of a machine once it has taken microsteps. -/
def firstAfter (m : Machine) (xs : List Step) : Except Fault Snapshot :=
  let (current, p) := ending m.chart m.implementations (.init, m.entry) xs
  (conclusion m.chart m.implementations m.limit current p).map (m.snapshotOf .init none)

/-- What results under two bounds have in common: a snapshot under the lower bound is one under
the higher bound, and where the higher bound is exceeded, the lower one is. -/
structure Curtails (low high : Nat) (below above : Except Fault Snapshot) : Prop where
  ok : ∀ {s}, below = .ok s → above = .ok s
  error : ∀ {fault}, above = .error fault →
    (∃ name, fault = .microstepLimit high name) ∧ ∃ name, below = .error (.microstepLimit low name)

variable {m : Machine} {s s' : Snapshot} {event : Event} {low high : Nat}

theorem microsteps_of_rest (h : s.done = true ∨ (m.reaction s event).transitions = []) :
  m.microsteps s event = []
  := by
  rw [microsteps, if_pos (by simpa using h)]

theorem microsteps_of_react {budget : Nat} (hlimit : m.limit = budget + 1)
    (h : ¬ (s.done = true ∨ (m.reaction s event).transitions = [])) :
  m.microsteps s event =
    m.reaction s event :: settling m.chart m.implementations budget event
      ((m.reaction s event).after m.chart m.implementations)
  := by
  rw [microsteps, if_neg (by simpa using h), hlimit]

/-- A machine that reacts to an event settles after its first microstep. -/
theorem transition_eq_settle {budget : Nat} (hlimit : m.limit = budget + 1)
    (h : ¬ (s.done = true ∨ (m.reaction s event).transitions = [])) :
  m.transition s event =
    (settle m.chart m.implementations m.limit budget event
      ((m.reaction s event).after m.chart m.implementations)).map (m.snapshotOf event (some s))
  := by
  rw [not_or, Bool.not_eq_true] at h
  rw [transition_of_react h.1 h.2, hlimit]
  rfl

theorem initial_eq_settle {budget : Nat} (hlimit : m.limit = budget + 1) :
  m.initial =
    (settle m.chart m.implementations m.limit budget .init m.entry).map (m.snapshotOf .init none)
  := by
  rw [initial, hlimit]
  rfl

/-- A machine answers an event with what its microsteps lead to. -/
theorem transition_eq_answerAfter (hlimit : m.limit ≠ 0) :
  m.transition s event = m.answerAfter s event (m.microsteps s event)
  := by
  obtain ⟨budget, hbudget⟩ := Nat.exists_eq_succ_of_ne_zero hlimit
  by_cases h : s.done = true ∨ (m.reaction s event).transitions = []
  · rw [transition_of_rest h, microsteps_of_rest h]
    rfl
  · rw [transition_eq_settle hbudget h, microsteps_of_react hbudget h, settle_eq]
    rfl

theorem initial_eq_firstAfter (hlimit : m.limit ≠ 0) :
  m.initial = m.firstAfter m.firstMicrosteps
  := by
  obtain ⟨budget, hbudget⟩ := Nat.exists_eq_succ_of_ne_zero hlimit
  rw [initial_eq_settle hbudget, firstAfter, firstMicrosteps, hbudget, settle_eq]
  rfl

theorem curtails_refl_ok (low high : Nat) (s : Snapshot) :
  Curtails low high (.ok s) (.ok s)
  := by
  constructor
  case ok => exact fun h => h
  case error =>
    intro fault h
    cases h

/-- A resolution under two budgets is curtailed by the lower one. -/
theorem curtails_settle {chart : Chart} {imps : Implementations} {p : Progress}
    {budget budget' : Nat} (low high : Nat) (f : Progress → Snapshot) (h : budget ≤ budget') :
  Curtails low high ((settle chart imps low budget event p).map f)
    ((settle chart imps high budget' event p).map f)
  := by
  constructor
  case ok =>
    intro s hok
    obtain ⟨p', hp', rfl⟩ := Outcome.map_eq_ok.mp hok
    rw [settle_of_le h hp']
    rfl
  case error =>
    intro fault herror
    cases hhigh : settle chart imps high budget' event p with
    | ok p' =>
      rw [hhigh] at herror
      cases herror
    | error fault' =>
      rw [hhigh] at herror
      cases herror
      use (settle_eq_error hhigh).1
      cases hlow : settle chart imps low budget event p with
      | ok p' =>
        rw [settle_of_le h hlow] at hhigh
        cases hhigh
      | error fault' =>
        obtain ⟨⟨name, rfl⟩, -⟩ := settle_eq_error hlow
        exact ⟨name, rfl⟩

theorem limit_withLimit {limit : Nat} (h : 1 ≤ limit) :
  (m.withLimit limit).limit = (limit - 1) + 1
  := by
  change max limit 1 = (limit - 1) + 1
  omega

/-- A lower bound curtails the reaction of a machine to an event, and the microsteps under it
are the first ones of those under the higher bound. -/
theorem curtails_transition (m : Machine) (hlow : 1 ≤ low) (hle : low ≤ high) (s : Snapshot)
    (event : Event) :
  Curtails low high ((m.withLimit low).transition s event)
      ((m.withLimit high).transition s event) ∧
    (m.withLimit low).microsteps s event = ((m.withLimit high).microsteps s event).take low
  := by
  have hlow' : (m.withLimit low).limit = (low - 1) + 1 := limit_withLimit hlow
  have hhigh' : (m.withLimit high).limit = (high - 1) + 1 := limit_withLimit (by omega)
  by_cases h : s.done = true ∨ (m.reaction s event).transitions = []
  · rw [transition_of_rest (m := m.withLimit low) h, transition_of_rest (m := m.withLimit high) h,
      microsteps_of_rest (m := m.withLimit low) h, microsteps_of_rest (m := m.withLimit high) h]
    exact ⟨curtails_refl_ok low high _, List.take_nil.symm⟩
  · rw [transition_eq_settle hlow' h, transition_eq_settle hhigh' h,
      microsteps_of_react hlow' h, microsteps_of_react hhigh' h, hlow', hhigh']
    constructor
    · rw [show low - 1 + 1 = low by omega, show high - 1 + 1 = high by omega]
      apply curtails_settle low high (m.snapshotOf event (some s)) (by omega)
    · obtain ⟨budget, rfl⟩ := Nat.exists_eq_add_of_le' hlow
      rw [List.take_succ_cons, Nat.add_sub_cancel]
      apply congrArg (m.reaction s event :: ·)
      apply settling_take (by omega)

theorem curtails_initial (m : Machine) (hlow : 1 ≤ low) (hle : low ≤ high) :
  Curtails low high (m.withLimit low).initial (m.withLimit high).initial ∧
    (m.withLimit low).firstMicrosteps = (m.withLimit high).firstMicrosteps.take (low - 1)
  := by
  have hlow' : (m.withLimit low).limit = (low - 1) + 1 := limit_withLimit hlow
  have hhigh' : (m.withLimit high).limit = (high - 1) + 1 := limit_withLimit (by omega)
  rw [initial_eq_settle hlow', initial_eq_settle hhigh', firstMicrosteps, firstMicrosteps, hlow',
    hhigh']
  constructor
  · rw [show low - 1 + 1 = low by omega, show high - 1 + 1 = high by omega]
    apply curtails_settle low high (m.snapshotOf .init none) (by omega)
  · apply settling_take (by omega)

/-- Under two bounds of the microsteps a machine gives the same snapshots as long as the lower
bound gives one, and the lower bound is exceeded where the higher one is.  The microsteps
under the lower bound are the first ones of those under the higher bound, at most as many as
the bound allows, where the entry of the default configuration counts as one; the machine
answers with what they lead to. -/
theorem transition_of_limits (m : Machine) (hlow : 1 ≤ low) (hle : low ≤ high) :
  (∀ s event,
    Curtails low high ((m.withLimit low).transition s event)
      ((m.withLimit high).transition s event) ∧
    (m.withLimit low).microsteps s event = ((m.withLimit high).microsteps s event).take low ∧
    ((m.withLimit low).microsteps s event).length ≤ low ∧
    (m.withLimit low).transition s event =
      (m.withLimit low).answerAfter s event ((m.withLimit low).microsteps s event)) ∧
  Curtails low high (m.withLimit low).initial (m.withLimit high).initial ∧
  (m.withLimit low).firstMicrosteps = (m.withLimit high).firstMicrosteps.take (low - 1) ∧
  1 + (m.withLimit low).firstMicrosteps.length ≤ low ∧
  (m.withLimit low).initial = (m.withLimit low).firstAfter (m.withLimit low).firstMicrosteps
  := by
  have hlimit : (m.withLimit low).limit ≠ 0 := by
    rw [limit_withLimit hlow]
    apply Nat.succ_ne_zero
  constructor
  · intro s event
    obtain ⟨hcurtails, htake⟩ := curtails_transition m hlow hle s event
    use hcurtails, htake
    rw [htake]
    use List.length_take_le low _
    rw [← htake]
    apply transition_eq_answerAfter hlimit
  · obtain ⟨hcurtails, htake⟩ := curtails_initial m hlow hle
    use hcurtails, htake
    constructor
    · rw [htake]
      have := List.length_take_le (low - 1) (m.withLimit high).firstMicrosteps
      omega
    · apply initial_eq_firstAfter hlimit

/-- A machine in which the event `GO` leads from `a` to `b`, and on to `d` by two eventless
transitions. -/
def chained : Document.Machine where
  root := .node { initial := some "a" }
    [("a", .node { on := [("GO", [{ targets := ["b"] }])] } []),
     ("b", .node { always := [{ targets := ["c"] }] } []),
     ("c", .node { always := [{ targets := ["d"] }] } []),
     ("d", .node {} [])]

theorem transition_of_limits_chained :
  1 ≤ 3 ∧ 3 ≤ 5 ∧ ∃ chart, Chart.ofDocument chained = .ok chart ∧
    ∃ s₀ s, (ofChart chart).initial = .ok s₀ ∧
      ((ofChart chart).withLimit 3).transition s₀ (.bare "GO") = .ok s ∧
      ((ofChart chart).withLimit 5).transition s₀ (.bare "GO") = .ok s ∧
      s.configuration = [0, 4] ∧
      (((ofChart chart).withLimit 3).microsteps s₀ (.bare "GO")).length = 3 ∧
      (((ofChart chart).withLimit 2).transition s₀ (.bare "GO")).toOption.isNone = true
  := by
  obtain ⟨chart, h, hp⟩ := Outcome.exists_of_any (x := Chart.ofDocument chained)
    (p := fun chart => (ofChart chart).initial.toOption.any (fun s₀ =>
      ((((ofChart chart).withLimit 3).microsteps s₀ (.bare "GO")).length = 3 ∧
        (((ofChart chart).withLimit 2).transition s₀ (.bare "GO")).toOption.isNone = true) ∧
      (((ofChart chart).withLimit 3).transition s₀ (.bare "GO")).toOption.any
        (fun s => s.configuration = [0, 4])))
    (by decide +kernel)
  obtain ⟨s₀, hinitial, hs⟩ := Outcome.exists_of_any hp
  obtain ⟨⟨hlength, hexceeded⟩, hs⟩ := of_decide_eq_true hs
  obtain ⟨s, hlow, hconfiguration⟩ := Outcome.exists_of_any hs
  have hbounds := transition_of_limits (ofChart chart) (show 1 ≤ 3 by decide)
    (show 3 ≤ 5 by decide)
  exact ⟨by decide, by decide, chart, h, s₀, s, hinitial, hlow,
    (hbounds.1 s₀ (.bare "GO")).1.ok hlow, of_decide_eq_true hconfiguration, hlength, hexceeded⟩

end Machine

end Statechart
