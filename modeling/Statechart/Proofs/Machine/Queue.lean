import Statechart.Proofs.Machine.Raised

/-!
# The queue of raised events

A resolution settles in turns: it takes the eventless transitions that are enabled, and only
where there are none the first event of the queue, whether or not this event takes a
transition.  So what is popped, together with what stays in the queue, is what was there and
what was raised, in the order in which it was raised (`Spins.queue_eq`); a macrostep that does
not end the machine pops exactly what it raises (`popped_of_macrostep`).
-/

namespace Statechart

namespace Progress

/-- A turn of a resolution: where it begins, the event under which it goes on, and the event
that it pops from the queue, if it does. -/
structure Turn where
  before : Progress
  current : Event
  popped : Option Event

/-- The resolution without the first event of its queue. -/
def pop (p : Progress) : Progress :=
  { p with queue := p.queue.tail }

section

variable (chart : Chart) (imps : Implementations)

/-- The microstep of a turn, if there is one: its transitions wait for the popped event, or for
none. -/
def Turn.step? (t : Turn) : Option Step :=
  match t.popped with
  | none => some ⟨t.before, t.before.enabled chart imps t.current true, t.current⟩
  | some event =>
    match t.before.enabled chart imps event false with
    | [] => none
    | ts => some ⟨t.before.pop, ts, event⟩

/-- Where a turn ends. -/
def Turn.next (t : Turn) : Progress :=
  match t.step? chart imps with
  | some x => x.after chart imps
  | none => t.before.pop

/-- What a turn raises. -/
def Turn.raised (t : Turn) : List Raising :=
  match t.step? chart imps with
  | some x => x.raised chart imps
  | none => []

/-- Whether it is the turn of what the turn takes: eventless transitions are enabled, or none
are and the popped event is the first of the queue. -/
def Turn.Due (t : Turn) : Prop :=
  match t.popped with
  | none => t.before.enabled chart imps t.current true ≠ []
  | some event =>
    t.before.enabled chart imps t.current true = [] ∧ t.before.queue.head? = some event

/-- The turns in which a resolution spins until it is done or has nothing to take. -/
inductive Spins : Event → Progress → List Turn → Progress → Prop where
  | done {current p} (h : p.done = true) : Spins current p [] p
  | idle {current p} (h : p.done = false) (hnone : p.enabled chart imps current true = [])
      (hqueue : p.queue = []) : Spins current p [] p
  | turn {current p popped turns p'} (h : p.done = false)
      (hdue : Turn.Due chart imps ⟨p, current, popped⟩)
      (hrest : Spins (popped.getD current) (Turn.next chart imps ⟨p, current, popped⟩) turns p') :
      Spins current p (⟨p, current, popped⟩ :: turns) p'

end

variable {chart : Chart} {imps : Implementations} {current event : Event} {p p' p'' : Progress}
  {turns turns' : List Turn} {next : Upcoming} {queue : List Event}

/-! ### Turns -/

theorem Turn.step?_of_eq_nil (h : p.enabled chart imps event false = []) :
  Turn.step? chart imps ⟨p, current, some event⟩ = none
  := by
  rw [step?]
  dsimp only
  rw [h]

theorem Turn.step?_of_ne_nil (h : p.enabled chart imps event false ≠ []) :
  Turn.step? chart imps ⟨p, current, some event⟩ =
    some ⟨p.pop, p.enabled chart imps event false, event⟩
  := by
  rw [step?]
  dsimp only
  split
  · next hnil => exact absurd hnil h
  · rfl

/-- What is due is determined by where a turn begins. -/
theorem Turn.Due.unique {popped popped' : Option Event}
    (h : Turn.Due chart imps ⟨p, current, popped⟩)
    (h' : Turn.Due chart imps ⟨p, current, popped'⟩) :
  popped = popped'
  := by
  cases popped with
  | none =>
    cases popped' with
    | none => rfl
    | some event => exact absurd h'.1 h
  | some event =>
    cases popped' with
    | none => exact absurd h.1 h'
    | some event' => exact h.2.symm.trans h'.2

theorem Turn.Due.not_idle {popped : Option Event} (h : Turn.Due chart imps ⟨p, current, popped⟩)
    (hnone : p.enabled chart imps current true = []) :
  p.queue ≠ []
  := by
  cases popped with
  | none => exact absurd hnone h
  | some event =>
    intro hqueue
    have hhead := h.2
    dsimp only at hhead
    rw [hqueue] at hhead
    cases hhead

/-- A resolution spins in one way only. -/
theorem Spins.unique (h : Spins chart imps current p turns p')
    (h' : Spins chart imps current p turns' p'') :
  turns = turns' ∧ p' = p''
  := by
  induction h generalizing turns' with
  | done h =>
    cases h' with
    | done h' => exact ⟨rfl, rfl⟩
    | idle h' => rw [h] at h'; cases h'
    | turn h' => rw [h] at h'; cases h'
  | idle h hnone hqueue =>
    cases h' with
    | done h' => rw [h] at h'; cases h'
    | idle => exact ⟨rfl, rfl⟩
    | turn h' hdue => exact absurd hqueue (hdue.not_idle hnone)
  | turn h hdue hrest ih =>
    cases h' with
    | done h' => rw [h] at h'; cases h'
    | idle h' hnone hqueue => exact absurd hqueue (hdue.not_idle hnone)
    | turn h' hdue' hrest' =>
      obtain rfl := hdue.unique hdue'
      obtain ⟨rfl, rfl⟩ := ih hrest'
      exact ⟨rfl, rfl⟩

/-- All turns are due. -/
theorem Spins.due (h : Spins chart imps current p turns p') :
  ∀ t ∈ turns, t.Due chart imps
  := by
  induction h with
  | done => simp
  | idle => simp
  | turn h hdue hrest ih => apply List.forall_mem_cons.mpr ⟨hdue, ih⟩

/-- A resolution that is not done in the end leaves no event in the queue. -/
theorem Spins.queue_eq_nil (h : Spins chart imps current p turns p') (hdone : p'.done = false) :
  p'.queue = []
  := by
  induction h with
  | done h =>
    rw [h] at hdone
    cases hdone
  | idle h hnone hqueue => exact hqueue
  | turn h hdue hrest ih => apply ih hdone

/-! ### Events -/

/-- A turn takes the popped event from the queue, and adds what it raises. -/
theorem Turn.queue_next {t : Turn} (h : t.Due chart imps)
    (hraised : t.before.collected.raised = []) :
  t.before.queue ++ (t.raised chart imps).map (Raising.event chart) =
      t.popped.toList ++ (t.next chart imps).queue ∧
    (t.next chart imps).collected.raised = []
  := by
  obtain ⟨p, current, popped⟩ := t
  have hstep : ∀ x : Step, Turn.step? chart imps ⟨p, current, popped⟩ = some x →
      x.before.collected.raised = [] →
      x.before.queue ++ (Turn.raised chart imps ⟨p, current, popped⟩).map (Raising.event chart) =
          (Turn.next chart imps ⟨p, current, popped⟩).queue ∧
        (Turn.next chart imps ⟨p, current, popped⟩).collected.raised = [] := by
    intro x hx hraised
    rw [Turn.raised, Turn.next, hx]
    dsimp only
    rw [x.queue_after.1, hraised, List.append_nil]
    exact ⟨rfl, x.queue_after.2⟩
  cases popped with
  | none => exact hstep _ rfl hraised
  | some event =>
    obtain ⟨rest, hqueue⟩ := List.head?_eq_some_iff.mp h.2
    dsimp only at hqueue hraised ⊢
    have htail : p.pop.queue = rest := by rw [pop, hqueue, List.tail_cons]
    by_cases henabled : p.enabled chart imps event false = []
    · rw [Turn.raised, Turn.next, Turn.step?_of_eq_nil henabled, hqueue]
      dsimp only
      rw [htail, List.map_nil, List.append_nil]
      exact ⟨rfl, hraised⟩
    · obtain ⟨heq, hempty⟩ := hstep _ (Turn.step?_of_ne_nil henabled) hraised
      dsimp only at heq
      rw [← heq, htail, hqueue]
      exact ⟨rfl, hempty⟩

/-- What is popped, with what stays in the queue, is what was in the queue with what is
raised. -/
theorem Spins.queue_eq (h : Spins chart imps current p turns p')
    (hraised : p.collected.raised = []) :
  p.queue ++ (turns.flatMap (Turn.raised chart imps)).map (Raising.event chart) =
    turns.filterMap Turn.popped ++ p'.queue
  := by
  induction h with
  | done h => exact List.append_nil _
  | idle h hnone hqueue => exact List.append_nil _
  | @turn current p popped turns p' h hdue hrest ih =>
    obtain ⟨hqueue, hraised'⟩ := Turn.queue_next hdue hraised
    have hpopped : List.filterMap Turn.popped (⟨p, current, popped⟩ :: turns) =
        popped.toList ++ turns.filterMap Turn.popped := by
      cases popped <;> rfl
    rw [List.flatMap_cons, List.map_append, ← List.append_assoc, hqueue, List.append_assoc,
      ih hraised', hpopped, List.append_assoc]

/-! ### Settling -/

/-- The search for what comes next is a row of turns that take nothing, up to the turn that
takes it, if there is one. -/
theorem spins_of_upcoming (hdone : p.done = false) (current : Event) (queue : List Event) :
  (p.upcoming chart imps current queue = none →
    ∃ turns, Spins chart imps current { p with queue := queue } turns { p with queue := [] }) ∧
  ∀ next turns p', p.upcoming chart imps current queue = some next →
    Spins chart imps next.trigger
      (Step.after chart imps ⟨{ p with queue := next.queue }, next.transitions, next.trigger⟩)
      turns p' →
    ∃ turns', Spins chart imps current { p with queue := queue } turns' p'
  := by
  -- a turn that takes no event, or one that takes the first event of the queue
  have hstep : ∀ {current queue p'} popped turns,
      Turn.Due chart imps ⟨{ p with queue := queue }, current, popped⟩ →
      Spins chart imps (popped.getD current)
        (Turn.next chart imps ⟨{ p with queue := queue }, current, popped⟩) turns p' →
      ∃ turns', Spins chart imps current { p with queue := queue } turns' p' :=
    fun popped turns hdue hrest => ⟨_, .turn hdone hdue hrest⟩
  induction queue generalizing current with
  | nil =>
    rw [upcoming]
    split
    · next hnone => exact ⟨fun _ => ⟨[], .idle hdone hnone rfl⟩, by simp⟩
    · next hne =>
      use by simp
      rintro next turns p' ⟨⟩ hrest
      exact hstep none turns hne hrest
  | cons event rest ih =>
    have hdue : p.enabled chart imps current true = [] →
        Turn.Due chart imps ⟨{ p with queue := event :: rest }, current, some event⟩ :=
      fun hnone => ⟨hnone, rfl⟩
    rw [upcoming]
    split
    · next hnone =>
      split
      · next hnothing =>
        have hnext : Turn.next chart imps
            ⟨{ p with queue := event :: rest }, current, some event⟩ =
              { p with queue := rest } := by
          rw [Turn.next, Turn.step?_of_eq_nil (p := { p with queue := event :: rest }) hnothing]
          rfl
        obtain ⟨hidle, htakes⟩ := ih event
        constructor
        · intro hupcoming
          obtain ⟨turns, hturns⟩ := hidle hupcoming
          exact hstep (some event) turns (hdue hnone) (hnext ▸ hturns)
        · intro next turns p' hupcoming hrest
          obtain ⟨turns', hturns'⟩ := htakes next turns p' hupcoming hrest
          exact hstep (some event) turns' (hdue hnone) (hnext ▸ hturns')
      · next hne =>
        use by simp
        rintro next turns p' ⟨⟩ hrest
        apply hstep (some event) turns (hdue hnone)
        rw [Turn.next, Turn.step?_of_ne_nil (p := { p with queue := event :: rest }) hne]
        exact hrest
    · next hne =>
      use by simp
      rintro next turns p' ⟨⟩ hrest
      exact hstep none turns hne hrest

/-- What a resolution settles to, it spins to. -/
theorem spins_of_settle {limit budget : Nat}
    (h : settle chart imps limit budget current p = .ok p') :
  ∃ turns, Spins chart imps current p turns p'
  := by
  obtain ⟨xs, hsettles⟩ := exists_settles h
  clear h
  induction hsettles with
  | done h => exact ⟨[], .done h⟩
  | idle h hnone => apply (spins_of_upcoming h _ _).1 hnone
  | step h hnext hrest ih =>
    obtain ⟨turns, hturns⟩ := ih
    apply (spins_of_upcoming h _ _).2 _ turns _ hnext hturns

/-- The turns in which a resolution goes on after `first` is raised, when it pops exactly what is
raised, in the order in which it is raised, and leaves nothing in the queue. -/
structure Exhausts (chart : Chart) (imps : Implementations) (current : Event) (p : Progress)
    (first : List Raising) (turns : List Turn) (p' : Progress) : Prop where
  spins : Spins chart imps current p turns p'
  unique : ∀ turns' p'', Spins chart imps current p turns' p'' → turns = turns' ∧ p' = p''
  due : ∀ t ∈ turns, t.Due chart imps
  popped_eq : turns.filterMap Turn.popped =
    (first ++ turns.flatMap (Turn.raised chart imps)).map (Raising.event chart)
  queue_eq_nil : p'.queue = []

theorem exhausts_of_settle {limit budget : Nat} {first : List Raising}
    (h : settle chart imps limit budget current p = .ok p') (hdone : p'.done = false)
    (hqueue : p.queue = first.map (Raising.event chart) ∧ p.collected.raised = []) :
  ∃ turns, Exhausts chart imps current p first turns p'
  := by
  obtain ⟨turns, hspins⟩ := spins_of_settle h
  have hempty := hspins.queue_eq_nil hdone
  have hpopped := hspins.queue_eq hqueue.2
  rw [hempty, List.append_nil, hqueue.1, ← List.map_append] at hpopped
  exact ⟨turns, hspins, fun _ _ => hspins.unique, hspins.due, hpopped.symm, hempty⟩

end Progress

namespace Machine

open Progress

/-- A macrostep that succeeds without ending the machine goes on, after its first microstep, in
turns of one way only.  It pops an event from the queue only when no eventless transition is
enabled, and the popped events are those that the macrostep raises, each once and in the order
in which they are raised; none is left in the end. -/
theorem popped_of_macrostep (m : Machine) :
  (∀ s, m.initial = .ok s → s.done = false →
    ∃ turns p, s = m.snapshotOf .init none p ∧
      Exhausts m.chart m.implementations .init m.entry m.entryRaised turns p) ∧
  ∀ s event s', m.transition s event = .ok s' → s.done = false →
    (resume s).enabled m.chart m.implementations event false ≠ [] → s'.done = false →
    ∃ turns p, s' = m.snapshotOf event (some s) p ∧
      Exhausts m.chart m.implementations event
        ((m.reaction s event).after m.chart m.implementations)
        ((m.reaction s event).raised m.chart m.implementations) turns p
  := by
  constructor
  · intro s h hdone
    rw [initial] at h
    obtain ⟨p, hp, rfl⟩ := Outcome.map_eq_ok.mp h
    unfold start at hp
    split at hp
    · cases hp
    · obtain ⟨turns, hturns⟩ := exhausts_of_settle hp hdone m.queue_entry
      exact ⟨turns, p, rfl, hturns⟩
  · intro s event s' h hs hne hdone
    rw [transition_of_react hs hne] at h
    obtain ⟨p, hp, rfl⟩ := Outcome.map_eq_ok.mp h
    unfold react at hp
    split at hp
    · cases hp
    · obtain ⟨turns, hturns⟩ :=
        exhausts_of_settle hp hdone (m.reaction s event).queue_after
      exact ⟨turns, p, rfl, hturns⟩

/-- A machine that raises two events on the way to `b`, goes on to `c` without an event, and
raises a third event on the entry of `d`. -/
def relaying : Document.Machine where
  root := .node { initial := some "a" }
    [("a", .node { on := [("GO", [{
        targets := ["b"],
        actions := [.raise (.fixed (.bare "ONE")), .raise (.fixed (.bare "TWO"))] }])] } []),
     ("b", .node { always := [{ targets := ["c"] }] } []),
     ("c", .node { on := [("ONE", [{ targets := ["d"] }])] } []),
     ("d", .node {
        entry := [.raise (.fixed (.bare "THREE"))],
        on := [("TWO", [{ targets := ["e"] }])] } []),
     ("e", .node { on := [("THREE", [{ targets := ["f"] }])] } []),
     ("f", .node {} [])]

theorem popped_of_macrostep_relaying :
  ∃ chart, Chart.ofDocument relaying = .ok chart ∧
    ∃ s s' turns p, (ofChart chart).initial = .ok s ∧
      (ofChart chart).transition s (.bare "GO") = .ok s' ∧ s'.configuration = [0, 6] ∧
      Exhausts chart {} (.bare "GO") (((ofChart chart).reaction s (.bare "GO")).after chart {})
        (((ofChart chart).reaction s (.bare "GO")).raised chart {}) turns p ∧
      ["ONE", "TWO"] <+: (turns.filterMap Turn.popped).map Event.name
  := by
  obtain ⟨chart, h, hp⟩ := Outcome.exists_of_any (x := Chart.ofDocument relaying)
    (p := fun chart => (ofChart chart).initial.toOption.any (fun s =>
      (s.done = false ∧ ((resume s).enabled chart {} (.bare "GO") false).isEmpty = false ∧
        ((((ofChart chart).reaction s (.bare "GO")).raised chart {}).map
          (Raising.event chart)).map Event.name = ["ONE", "TWO"]) ∧
      ((ofChart chart).transition s (.bare "GO")).toOption.any (fun s' =>
        s'.done = false ∧ s'.configuration = [0, 6])))
    (by decide +kernel)
  obtain ⟨s, hinitial, hs⟩ := Outcome.exists_of_any hp
  obtain ⟨⟨hdone, hne, hraised⟩, hs'⟩ := of_decide_eq_true hs
  obtain ⟨s', hstep, hs'⟩ := Outcome.exists_of_any hs'
  obtain ⟨hdone', hconfiguration⟩ := of_decide_eq_true hs'
  obtain ⟨turns, p, -, hturns⟩ := (popped_of_macrostep (ofChart chart)).2 s _ s' hstep hdone
    (List.isEmpty_eq_false_iff.mp hne) hdone'
  use chart, h, s, s', turns, p, hinitial, hstep, hconfiguration, hturns
  rw [hturns.popped_eq, List.map_append, List.map_append]
  exact hraised ▸ List.prefix_append _ _

end Machine

end Statechart
