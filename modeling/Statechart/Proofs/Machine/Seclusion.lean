import Statechart.Proofs.Machine.Run
import Statechart.Proofs.Resolution.Actions
import Statechart.Proofs.Resolution.Selection

/-!
# Secluded machines

A machine is secluded if it has no invocations, its sends go to itself without delay, and its
implementations ask nothing of the interpreter.  The actions of its snapshots then concern no
one but the machine (`secluded_transition`).
-/

namespace Statechart

/-- Whether an effect asks nothing of the interpreter. -/
def Effect.Silent (effect : Effect) : Prop :=
  ∀ context event, effect context event = []

namespace Action

/-- Whether an action concerns the machine alone: an implementation asks nothing of the
interpreter, and a send goes to the machine itself without delay. -/
def Secluded (imps : Implementations) : Action → Prop
  | .named name => ∀ effect, imps.actions name = some effect → Effect.Silent effect
  | .inline _ effect => Effect.Silent effect
  | .send _ delay target _ =>
    target = none ∧ ∀ context event d,
      Collection.delayOf imps delay context event = .ok (some d) → d = 0
  | .sendParent _ => False
  | _ => True

/-- Whether an action concerns the machine alone because it has no implementation and no
delay. -/
def isPlain (imps : Implementations) : Action → Bool
  | .named name => (imps.actions name).isNone
  | .inline .. => false
  | .send _ delay target _ => delay.isNone && target.isNone
  | .sendParent _ => false
  | _ => true

variable {imps : Implementations} {action : Action}

theorem secluded_of_isPlain (h : action.isPlain imps = true) :
  action.Secluded imps
  := by
  cases action with
  | named name =>
    intro effect heffect
    rw [isPlain, heffect] at h
    cases h
  | inline name effect => cases h
  | send event delay target id =>
    obtain ⟨hdelay, htarget⟩ := Bool.and_eq_true_iff.mp h
    use Option.isNone_iff_eq_none.mp htarget
    intro context trigger d hd
    rw [Option.isNone_iff_eq_none.mp hdelay] at hd
    cases hd
  | sendParent event => cases h
  | _ => trivial

end Action

/-- Whether a node has no invocations, and all its actions concern the machine alone. -/
structure Node.Secluded (imps : Implementations) (n : Node) : Prop where
  invocations : n.invocations = []
  entry : ∀ action ∈ n.entry, action.Secluded imps
  exit : ∀ action ∈ n.exit, action.Secluded imps
  transitions : ∀ t ∈ n.transitions, ∀ action ∈ t.actions, action.Secluded imps

/-- Whether a node has no invocations and plain actions. -/
def Node.isPlain (imps : Implementations) (n : Node) : Bool :=
  n.invocations.isEmpty && (n.entry ++ n.exit).all (Action.isPlain imps) &&
    n.transitions.all (fun t => t.actions.all (Action.isPlain imps))

theorem Node.secluded_of_isPlain {imps : Implementations} {n : Node} (h : n.isPlain imps = true) :
  n.Secluded imps
  := by
  simp only [isPlain, Bool.and_eq_true, List.isEmpty_iff, List.all_eq_true, List.mem_append]
    at h
  obtain ⟨⟨hinvocations, hactions⟩, htransitions⟩ := h
  constructor
  case invocations => exact hinvocations
  case entry => exact fun action ha => Action.secluded_of_isPlain (hactions action (Or.inl ha))
  case exit => exact fun action ha => Action.secluded_of_isPlain (hactions action (Or.inr ha))
  case transitions =>
    exact fun t ht action ha => Action.secluded_of_isPlain (htransitions t ht action ha)

/-- Whether a duty concerns the machine alone. -/
def Duty.Secluded : Duty → Prop
  | .execute effect => Effect.Silent effect
  | .send dispatched =>
    dispatched.destination = .myself ∧ ∀ d, dispatched.delay = some d → d = 0
  | .start .. => False
  | _ => True

/-- Whether all actions of a snapshot concern the machine alone. -/
def Snapshot.Secluded (s : Snapshot) : Prop :=
  ∀ action ∈ s.actions, action.duty.Secluded

namespace Chart

/-- Whether all nodes of a chart are secluded. -/
def Secluded (chart : Chart) (imps : Implementations) : Prop :=
  ∀ n ∈ chart.nodes, n.Secluded imps

variable {chart : Chart} {imps : Implementations}

/-- What is listed under a node is listed under one of the nodes of the chart. -/
theorem exists_node_of_mem {α : Type} {f : Node → List α} {n : Nat} {x : α}
    (h : x ∈ ((chart.node? n).map f).getD []) :
  ∃ node ∈ chart.nodes, x ∈ f node
  := by
  cases hn : chart.node? n with
  | none =>
    rw [hn] at h
    cases h
  | some node =>
    rw [hn] at h
    exact ⟨node, List.mem_of_getElem? hn, h⟩

theorem Secluded.invocation?_eq_none (h : chart.Secluded imps) (id : String) :
  chart.invocation? id = none
  := by
  rw [invocation?, List.find?_eq_none]
  intro i hi
  obtain ⟨node, hnode, hi⟩ := List.mem_flatMap.mp hi
  rw [(h node hnode).invocations] at hi
  cases hi

end Chart

namespace Collection

variable {chart : Chart} {imps : Implementations} {trigger : Event} {c c' : Collection}
  {action : Action} {actions : List Action}

/-- The duty of an action that concerns the machine alone does so too. -/
theorem secluded_outcome (h : chart.Secluded imps) (haction : action.Secluded imps)
    {context : Json} {duty : Duty}
    (hduty : outcome chart imps action context trigger = .ok (.duty duty)) :
  duty.Secluded
  := by
  cases action with
  | named name =>
    cases hduty
    rw [namedDuty]
    cases heffect : imps.actions name with
    | none => trivial
    | some effect => exact haction effect heffect
  | inline name effect =>
    cases hduty
    exact haction
  | send event delay target id =>
    obtain ⟨send, hsend, hduty⟩ := Outcome.map_eq_ok.mp hduty
    cases hduty
    obtain ⟨event', -, hsend⟩ := Outcome.bind_eq_ok.mp hsend
    obtain ⟨delay', hdelay, hsend⟩ := Outcome.bind_eq_ok.mp hsend
    cases hsend
    obtain ⟨rfl, hzero⟩ := haction
    constructor
    · rfl
    · rintro d rfl
      exact hzero context trigger d hdelay
  | assign mapping =>
    obtain ⟨next, -, hnext⟩ := Outcome.map_eq_ok.mp hduty
    cases hnext
  | raise event =>
    obtain ⟨next, -, hnext⟩ := Outcome.map_eq_ok.mp hduty
    cases hnext
  | sendParent event => cases haction
  | start id =>
    obtain ⟨duty', hstart, hduty⟩ := Outcome.map_eq_ok.mp hduty
    cases hduty
    rw [startOf, h.invocation?_eq_none id] at hstart
    cases hstart
    trivial
  | log expression label =>
    cases hduty
    trivial
  | cancel sendId =>
    cases hduty
    trivial
  | stop id =>
    cases hduty
    trivial

/-- Whether all collected actions concern the machine alone. -/
def Secluded (c : Collection) : Prop :=
  ∀ action ∈ c.actions, action.duty.Secluded

theorem Same.secluded (h : Same c c') (hc : c'.Secluded) :
  c.Secluded
  := by
  rw [Secluded, h.actions]
  exact hc

theorem Secluded.expand (h : chart.Secluded imps) (hc : c.Secluded)
    (haction : action.Secluded imps) :
  (c.expand chart imps trigger action).Secluded
  := by
  rw [Collection.expand]
  split
  · exact hc
  · exact hc
  · next duty hduty =>
    intro a ha
    rcases List.mem_append.mp ha with ha | ha
    · exact hc a ha
    · rw [List.mem_singleton.mp ha]
      exact secluded_outcome h haction hduty
  · intro a ha
    rcases List.mem_append.mp ha with ha | ha
    · exact hc a ha
    · rw [List.mem_singleton.mp ha]
      trivial

theorem Secluded.collect (h : chart.Secluded imps) (hc : c.Secluded)
    (hactions : ∀ action ∈ actions, action.Secluded imps) :
  (c.collect chart imps trigger actions).Secluded
  := by
  rw [Collection.collect]
  induction actions generalizing c with
  | nil => exact hc
  | cons action actions ih =>
    obtain ⟨hfirst, hrest⟩ := List.forall_mem_cons.mp hactions
    exact ih (hc.expand h hfirst) hrest

end Collection

namespace Chart

variable {chart : Chart} {imps : Implementations} {configuration : NodeSet} {history : History}
  {context : Json} {event : Event} {eventless : Bool} {t : Transition}

/-- A selected transition belongs to some node. -/
theorem exists_mem_transitions_of_mem_select
    (ht : t ∈ chart.select imps configuration history context event eventless) :
  ∃ n, t ∈ chart.transitions n
  := by
  obtain ⟨leaf, -, htaken⟩ :=
    List.mem_filterMap.mp (subset_distinct _ t (subset_foldl_keep _ t ht))
  obtain ⟨n, -, hfirst⟩ := List.exists_of_findSome?_eq_some htaken
  exact ⟨n, List.mem_of_find?_eq_some hfirst⟩

end Chart

namespace Machine

open Progress Chart

/-- Whether a machine concerns no one else. -/
def Secluded (m : Machine) : Prop :=
  m.chart.Secluded m.implementations

variable {m : Machine} {s s' : Snapshot} {event : Event} {p : Progress}

/-- An enabled microstep of a secluded machine collects actions that concern the machine
alone. -/
theorem Secluded.after (hm : m.Secluded) {x : Step}
    (henabled : x.Enabled m.chart m.implementations) (hx : x.before.collected.Secluded) :
  (x.after m.chart m.implementations).collected.Secluded
  := by
  apply (collected_microstep x.before x.transitions).secluded
  apply hx.collect hm
  intro action ha
  rw [performed, List.mem_append, List.mem_append] at ha
  rcases ha with (ha | ha) | ha
  · obtain ⟨n, -, ha⟩ := List.mem_flatMap.mp ha
    obtain ⟨node, hnode, ha⟩ := exists_node_of_mem ha
    exact (hm node hnode).exit action ha
  · obtain ⟨t, ht, ha⟩ := List.mem_flatMap.mp ha
    obtain ⟨event, eventless, heq⟩ := henabled
    rw [heq, enabled] at ht
    obtain ⟨n, ht⟩ := exists_mem_transitions_of_mem_select ht
    obtain ⟨node, hnode, ht⟩ := exists_node_of_mem ht
    exact (hm node hnode).transitions t ht action ha
  · obtain ⟨n, -, ha⟩ := List.mem_flatMap.mp ha
    obtain ⟨node, hnode, ha⟩ := exists_node_of_mem ha
    exact (hm node hnode).entry action ha

theorem Secluded.settles (hm : m.Secluded) {xs : List Step} {p' : Progress}
    (h : Settles m.chart m.implementations event p xs p') (hp : p.collected.Secluded) :
  p'.collected.Secluded
  := by
  apply h.preserves (P := fun p => p.collected.Secluded) _ _ hp
  · exact fun p queue hp => hp
  · exact fun x henabled _ hx => hm.after henabled hx

/-- The actions of the first snapshot of a secluded machine concern the machine alone. -/
theorem Secluded.secluded_initial (hm : m.Secluded) (h : m.initial = .ok s) :
  s.Secluded
  := by
  obtain ⟨xs, p, hsettles, rfl⟩ := exists_settles_initial h
  apply hm.settles hsettles
  apply (collected_enter _ _).secluded
  apply Collection.Secluded.collect hm
  · exact fun action ha => absurd ha List.not_mem_nil
  · intro action ha
    obtain ⟨n, -, ha⟩ := List.mem_flatMap.mp ha
    obtain ⟨node, hnode, ha⟩ := exists_node_of_mem ha
    exact (hm node hnode).entry action ha

/-- The actions with which a secluded machine answers an event concern the machine alone. -/
theorem Secluded.secluded_transition (hm : m.Secluded) (h : m.transition s event = .ok s') :
  s'.Secluded
  := by
  obtain ⟨xs, hmoves⟩ := exists_moves h
  cases hmoves with
  | rest => exact fun action ha => absurd ha List.not_mem_nil
  | react hsettles =>
    apply hm.settles hsettles
    apply hm.after ⟨event, false, rfl⟩
    exact fun action ha => absurd ha List.not_mem_nil

end Machine

end Statechart
