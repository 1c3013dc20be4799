import Statechart.Proofs.Machine.Isolation
import Statechart.Proofs.Machine.Path
import Statechart.Proofs.Resolution.Actions
import Statechart.Proofs.Resolution.Reentry

/-!
# Alternation of entries and exits

The exits and entries of each node alternate in a run exactly if no microstep enters a node
that stays active (`Path.alternates_iff`).  This holds as long as transitions move inward
(`alternates_of_run`), but not of transitions to the root, which is never exited, or to history
nodes that stand for nodes elsewhere.
-/

namespace Statechart

namespace Progress

/-- Whether a microstep enters no node that stays active. -/
def Step.Fresh (chart : Chart) (x : Step) : Prop :=
  ∀ n ∈ x.before.entering chart x.transitions, ¬ chart.Remains x.before x.transitions n

/-- What microsteps do to a node, in order: `false` stands for an exit, `true` for an entry. -/
def changes (chart : Chart) (n : Nat) (xs : List Step) : List Bool :=
  xs.flatMap (fun x =>
    (if n ∈ x.before.exiting chart x.transitions then [false] else []) ++
      if n ∈ x.before.entering chart x.transitions then [true] else [])

/-- Whether the exits and entries of a node alternate in microsteps; the flag says whether
the node is active at first. -/
def Alternates (chart : Chart) (n : Nat) (active : Bool) (xs : List Step) : Prop :=
  (active :: changes chart n xs).IsChain (· ≠ ·)

variable {chart : Chart} {imps : Implementations} {c c' : NodeSet} {η η' : History}
  {x : Step} {xs : List Step} {n : Nat}

/-- The changes of a node alternate exactly if the first microstep does not enter it while
it stays active, and those of the other microsteps alternate after the first one. -/
theorem alternates_cons :
  Alternates chart n (decide (n ∈ x.before.configuration)) (x :: xs) ↔
    (n ∈ x.before.entering chart x.transitions → ¬ chart.Remains x.before x.transitions n) ∧
      Alternates chart n (decide (n ∈ (x.after chart imps).configuration)) xs
  := by
  have hafter : n ∈ (x.after chart imps).configuration ↔
      chart.Remains x.before x.transitions n ∨ n ∈ x.before.entering chart x.transitions :=
    mem_configuration_microstep
  rw [Alternates, changes, List.flatMap_cons, ← changes, Alternates]
  by_cases hactive : n ∈ x.before.configuration
  · by_cases hexited : n ∈ x.before.exiting chart x.transitions
    · by_cases hentered : n ∈ x.before.entering chart x.transitions
      · simp [hafter, Chart.Remains, hactive, hexited, hentered]
      · simp [hafter, Chart.Remains, hactive, hexited, hentered]
    · by_cases hentered : n ∈ x.before.entering chart x.transitions
      · simp [Chart.Remains, hactive, hexited, hentered]
      · simp [hafter, Chart.Remains, hactive, hexited, hentered]
  · have hexited : n ∉ x.before.exiting chart x.transitions :=
      fun hexited => hactive (mem_exiting.mp hexited).1
    by_cases hentered : n ∈ x.before.entering chart x.transitions
    · simp [hafter, Chart.Remains, hactive, hexited, hentered]
    · simp [hafter, Chart.Remains, hactive, hexited, hentered]

/-- Along a path the changes of all nodes alternate exactly if no microstep enters a node that
stays active. -/
theorem Path.alternates_iff (h : Path chart imps c η xs c' η') :
  (∀ x ∈ xs, x.Fresh chart) ↔ ∀ n, Alternates chart n (decide (n ∈ c)) xs
  := by
  induction h with
  | nil => simp [Alternates, changes]
  | @cons x xs _ _ h ih =>
    rw [List.forall_mem_cons, ih, Step.Fresh, ← forall_and]
    exact forall_congr' (fun n => alternates_cons.symm)

end Progress

namespace Machine

open Progress Chart

variable {m : Machine} {s : Snapshot} {xs : List Step}

/-- Let the transitions of a compiled chart have at most one target.  A microstep of a run
collects the exit actions of the nodes that it exits, the actions of its transitions and the
entry actions of the nodes that it enters, each node once.  It enters no node that stays
active if its transitions are inward, and, from a legal configuration, only then.  The exits
and entries of all nodes alternate in the run, from what is entered at its beginning on,
exactly if no microstep enters a node that stays active; so they do if transitions aim at
states other than the root. -/
theorem alternates_of_run {document : Document.Machine} (h : ofDocument document = .ok m.chart)
    (hsingle : m.chart.SingleTargets) (hrun : m.Run xs s) :
  (∀ x ∈ xs,
    Collection.Same (x.after m.chart m.implementations).collected
      (x.before.collected.collect m.chart m.implementations x.trigger
        (x.before.performed m.chart x.transitions)) ∧
    (x.before.entering m.chart x.transitions).Pairwise (· < ·) ∧
    ((∀ t ∈ x.transitions, m.chart.Inward x.before x.transitions t) → x.Fresh m.chart) ∧
    (m.chart.Legal x.before.configuration → x.Fresh m.chart →
      ∀ t ∈ x.transitions, m.chart.Inward x.before x.transitions t)) ∧
  (∃ c η, m.Begins c η ∧
    Path m.chart m.implementations c η xs s.configuration s.history ∧
    ((∀ x ∈ xs, x.Fresh m.chart) ↔ ∀ n, Alternates m.chart n (decide (n ∈ c)) xs)) ∧
  (m.chart.AimsAtStates → ∀ x ∈ xs, x.Fresh m.chart)
  := by
  have wf := wellFormed_of_ofDocument h
  have htransitions : ∀ x ∈ xs, ∀ t ∈ x.transitions, t ∈ m.chart.transitions t.source := by
    intro x hx t ht
    obtain ⟨event, eventless, heq⟩ := hrun.enabled x hx
    rw [heq] at ht
    apply wf.mem_transitions_of_mem_select ht
  have hinward : ∀ x ∈ xs, (∀ t ∈ x.transitions, m.chart.Inward x.before x.transitions t) →
      x.Fresh m.chart :=
    fun x hx hinward n hn => wf.not_remains_of_inward
      (fun t ht => hsingle _ t (htransitions x hx t ht)) hinward hn
  and_intros
  · intro x hx
    use collected_microstep x.before x.transitions, entering_increasing _ _, hinward x hx
    intro legal hfresh
    obtain ⟨hsources, hdisjoint⟩ := selected_of_enabled wf (hrun.enabled x hx) legal
    exact (wf.not_remains_entering_iff (hrun.plain wf x hx) legal hsources hdisjoint
      hsingle).mp hfresh
  · obtain ⟨c, η, hbegins, hpath⟩ := hrun.exists_path
    exact ⟨c, η, hbegins, hpath, hpath.alternates_iff⟩
  · intro haims x hx
    apply hinward x hx
    intro t ht
    have hmem := htransitions x hx t ht
    apply wf.inward_of_plain ht hmem (hsingle _ t hmem) (haims _ t hmem)

/-- A compound state that the event `AGAIN` exits and enters again. -/
def revolving : Document.Machine where
  root := .node { initial := some "q" }
    [("q", .node { initial := some "a", on := [("AGAIN", [{ targets := ["#machine.q"] }])] }
      [("a", .node {} []), ("b", .node {} [])])]

theorem alternates_of_run_revolving :
  ∃ chart, ofDocument revolving = .ok chart ∧
    ∃ (xs : List Step) (s : Snapshot) (x : Step) (c : NodeSet) (η : History),
      (ofChart chart).Run xs s ∧ x ∈ xs ∧
      1 ∈ x.before.exiting chart x.transitions ∧ 1 ∈ x.before.entering chart x.transitions ∧
      (ofChart chart).Begins c η ∧ ∀ n, Alternates chart n (decide (n ∈ c)) xs
  := by
  obtain ⟨chart, h, hp⟩ := Outcome.exists_of_any (x := ofDocument revolving)
    (p := fun chart => (chart.SingleTargets ∧ chart.AimsAtStates) ∧
      (ofChart chart).initial.toOption.any (fun s₀ =>
        let ts := (resume s₀).enabled chart {} (.bare "AGAIN") false
        (s₀.done = false ∧ ts.isEmpty = false ∧ 1 ∈ (resume s₀).exiting chart ts ∧
          1 ∈ (resume s₀).entering chart ts) ∧
        ((ofChart chart).transition s₀ (.bare "AGAIN")).toOption.any (fun _ => true)))
    (by decide +kernel)
  obtain ⟨⟨hsingle, haims⟩, hs₀⟩ := of_decide_eq_true hp
  obtain ⟨s₀, hinitial, hs⟩ := Outcome.exists_of_any hs₀
  obtain ⟨⟨hdone, hne, hexited, hentered⟩, hs⟩ := of_decide_eq_true hs
  obtain ⟨s, hstep, -⟩ := Outcome.exists_of_any hs
  obtain ⟨xs, hrun⟩ := exists_run (.initial hinitial) .refl
  obtain ⟨ys, hmoves⟩ := exists_moves_react hstep hdone
    (fun hnil : (resume s₀).enabled chart {} (.bare "AGAIN") false = [] => by
      rw [hnil] at hne
      cases hne)
  have hrun' := Run.step hrun hmoves
  obtain ⟨-, ⟨c, η, hbegins, -, hiff⟩, hfresh⟩ :=
    alternates_of_run (m := ofChart chart) h hsingle hrun'
  exact ⟨chart, h, _, s, _, c, η, hrun', List.mem_append_right xs List.mem_cons_self, hexited,
    hentered, hbegins, hiff.mp (hfresh haims)⟩

/-- A machine with an entry and an exit action, whose root has a transition without a
target. -/
def reentered : Document.Machine where
  root := .node
    { initial := some "a", entry := [.named "enter"], exit := [.named "leave"],
      on := [("AGAIN", [{}])] }
    [("a", .node {} [])]

theorem not_fresh_reentered :
  ∃ chart, ofDocument reentered = .ok chart ∧ chart.SingleTargets ∧
    ∃ s₀ s ts, (ofChart chart).initial = .ok s₀ ∧
      (ofChart chart).transition s₀ (.bare "AGAIN") = .ok s ∧
      (resume s₀).enabled chart {} (.bare "AGAIN") false = ts ∧
      (∃ n ∈ (resume s₀).entering chart ts, chart.Remains (resume s₀) ts n) ∧
      s₀.actionTypes = ["enter"] ∧ s.actionTypes = ["enter"]
  := by
  obtain ⟨chart, h, hp⟩ := Outcome.exists_of_any (x := ofDocument reentered)
    (p := fun chart => chart.SingleTargets ∧
      (ofChart chart).initial.toOption.any (fun s₀ =>
        let ts := (resume s₀).enabled chart {} (.bare "AGAIN") false
        (root ∈ (resume s₀).entering chart ts ∧ root ∈ s₀.configuration ∧
          root ∉ (resume s₀).exiting chart ts ∧ s₀.actionTypes = ["enter"]) ∧
        ((ofChart chart).transition s₀ (.bare "AGAIN")).toOption.any
          (fun s => s.actionTypes = ["enter"])))
    (by decide +kernel)
  obtain ⟨hsingle, hs₀⟩ := of_decide_eq_true hp
  obtain ⟨s₀, hinitial, hs⟩ := Outcome.exists_of_any hs₀
  obtain ⟨⟨hentered, hactive, hstays, htypes⟩, hs⟩ := of_decide_eq_true hs
  obtain ⟨s, hstep, htypes'⟩ := Outcome.exists_of_any hs
  exact ⟨chart, h, hsingle, s₀, s, _, hinitial, hstep, rfl,
    ⟨root, hentered, hactive, hstays⟩, htypes, of_decide_eq_true htypes'⟩

end Machine

end Statechart
