import Statechart.Proofs.Machine.Run
import Statechart.Proofs.Resolution.Actions

/-!
# Raised events

What a microstep raises, each event with its reason: an action raises it, an action fails, or
a node is complete.  The events join the queue at the end of the microstep, in the order in
which they are raised (`Step.queue_after`).
-/

namespace Statechart

/-- Why an event is raised. -/
inductive Raising where
  /-- An action raises the event. -/
  | action (event : Event)
  /-- An action fails. -/
  | failure (type reason : String)
  /-- A node is complete. -/
  | completion (n : Nat) (data : Json)

namespace Raising

/-- The event that is raised. -/
def event (chart : Chart) : Raising → Event
  | .action event => event
  | .failure type reason => Collection.failure type reason
  | .completion n data => .stateDone (chart.nodeId n) data

/-- The node that is complete. -/
def completed? : Raising → Option Nat
  | .completion n _ => some n
  | _ => none

end Raising

namespace Collection

variable {chart : Chart} {imps : Implementations} {trigger : Event} {c : Collection}

/-- What an action raises. -/
def raisingsOf (chart : Chart) (imps : Implementations) (trigger : Event) (c : Collection)
    (action : Action) : List Raising :=
  match outcome chart imps action c.context trigger with
  | .ok (.raised event) => [.action event]
  | .ok _ => []
  | .error reason => [.failure action.type reason]

/-- What actions raise, one after the other. -/
def raisings (chart : Chart) (imps : Implementations) (trigger : Event) :
    Collection → List Action → List Raising
  | _, [] => []
  | c, action :: actions =>
    c.raisingsOf chart imps trigger action ++
      raisings chart imps trigger (c.expand chart imps trigger action) actions

theorem raised_expand (c : Collection) (action : Action) :
  (c.expand chart imps trigger action).raised =
    c.raised ++ (c.raisingsOf chart imps trigger action).map (Raising.event chart)
  := by
  rw [expand, raisingsOf]
  cases outcome chart imps action c.context trigger with
  | error reason => rfl
  | ok result =>
    cases result with
    | raised event => rfl
    | context next => exact (List.append_nil _).symm
    | duty duty => exact (List.append_nil _).symm

theorem raised_collect (c : Collection) (actions : List Action) :
  (c.collect chart imps trigger actions).raised =
    c.raised ++ (c.raisings chart imps trigger actions).map (Raising.event chart)
  := by
  induction actions generalizing c with
  | nil => exact (List.append_nil _).symm
  | cons action actions ih =>
    rw [raisings, List.map_append, ← List.append_assoc, ← raised_expand]
    apply ih

/-- Actions complete no node. -/
theorem completed_raisings (c : Collection) (actions : List Action) :
  (c.raisings chart imps trigger actions).filterMap Raising.completed? = []
  := by
  induction actions generalizing c with
  | nil => rfl
  | cons action actions ih =>
    rw [raisings, List.filterMap_append, ih, List.append_nil, raisingsOf]
    cases outcome chart imps action c.context trigger with
    | error reason => rfl
    | ok result => cases result <;> rfl

end Collection

namespace Progress

open Chart (root)

variable {chart : Chart} {imps : Implementations} {trigger : Event} {p : Progress}
  {ts : List Transition}

/-- Whether all regions of a node are complete. -/
def regionsComplete (chart : Chart) (configuration : NodeSet) (n : Nat) : Bool :=
  (chart.regions n).all (isComplete chart configuration chart.depthBound)

/-- The parallel node above a node, if all its regions are complete. -/
def completedAbove (chart : Chart) (configuration : NodeSet) (parent : Nat) : List Nat :=
  (chart.parent? parent).toList.filter
    (fun above => (chart.kind above).isParallel && regionsComplete chart configuration above)

/-- What the entry of a final child of `parent` raises. -/
def completions (chart : Chart) (configuration : NodeSet) (parent : Nat) (data : Option Json) :
    List Raising :=
  if parent = root then []
  else
    .completion parent (data.getD .null) ::
      (completedAbove chart configuration parent).map (fun above => .completion above .null)

/-- What the entry of a node raises: its entry actions do, and then its completions. -/
def entryRaisings (chart : Chart) (imps : Implementations) (trigger : Event) (p : Progress)
    (n : Nat) : List Raising :=
  p.collected.raisings chart imps trigger (chart.entryActions n) ++
    match chart.kind n, chart.parent? n with
    | .final data, some parent =>
      completions chart (NodeSet.insert n p.configuration) parent
        (dataOf imps (p.collected.collect chart imps trigger (chart.entryActions n)).context
          trigger data)
    | _, _ => []

/-- What the entry of nodes raises, one after the other. -/
def arrivals (chart : Chart) (imps : Implementations) (trigger : Event) :
    Progress → List Nat → List Raising
  | _, [] => []
  | p, n :: nodes =>
    p.entryRaisings chart imps trigger n ++
      arrivals chart imps trigger (p.enterNode chart imps trigger n) nodes

theorem raised_complete (p : Progress) (parent : Nat) (data : Option Json) :
  (p.complete chart parent data).collected.raised =
    p.collected.raised ++
      (completions chart p.configuration parent data).map (Raising.event chart)
  := by
  rw [complete, completions]
  split
  · exact (List.append_nil _).symm
  · dsimp only
    rw [completedAbove]
    cases chart.parent? parent with
    | none => rfl
    | some above =>
      dsimp only
      rw [Option.toList_some, List.filter_cons, List.filter_nil]
      split
      · next h =>
        rw [if_pos (by exact h)]
        exact List.append_assoc _ _ _
      · next h =>
        rw [if_neg (by exact h)]
        rfl

theorem raised_enterNode (p : Progress) (n : Nat) :
  (p.enterNode chart imps trigger n).collected.raised =
    p.collected.raised ++ (p.entryRaisings chart imps trigger n).map (Raising.event chart)
  := by
  rw [enterNode, entryRaisings, List.map_append, ← List.append_assoc,
    ← Collection.raised_collect]
  cases chart.kind n with
  | final data =>
    cases chart.parent? n with
    | none => exact (List.append_nil _).symm
    | some parent => apply raised_complete
  | _ => exact (List.append_nil _).symm

theorem raised_foldl_enterNode (p : Progress) (nodes : List Nat) :
  (nodes.foldl (enterNode chart imps trigger) p).collected.raised =
    p.collected.raised ++ (p.arrivals chart imps trigger nodes).map (Raising.event chart)
  := by
  induction nodes generalizing p with
  | nil => exact (List.append_nil _).symm
  | cons n nodes ih =>
    rw [List.foldl_cons, ih, arrivals, List.map_append, ← List.append_assoc, raised_enterNode]

theorem queue_enterNode (p : Progress) (n : Nat) :
  (p.enterNode chart imps trigger n).queue = p.queue
  := by
  rw [enterNode]
  split
  · rw [complete]
    split
    · rfl
    · dsimp only
      split
      · rfl
      · split <;> rfl
  · rfl

theorem queue_foldl_enterNode (p : Progress) (nodes : List Nat) :
  (nodes.foldl (enterNode chart imps trigger) p).queue = p.queue
  := by
  induction nodes generalizing p with
  | nil => rfl
  | cons n nodes ih => rw [List.foldl_cons, ih, queue_enterNode]

/-- When nodes are entered, what was raised joins the queue, and nothing stays behind. -/
theorem queue_enter (p : Progress) (nodes : NodeSet) :
  (p.enter chart imps trigger nodes).queue =
      p.queue ++ p.collected.raised ++
        (p.arrivals chart imps trigger nodes).map (Raising.event chart) ∧
    (p.enter chart imps trigger nodes).collected.raised = []
  := by
  constructor
  · rw [List.append_assoc, ← raised_foldl_enterNode, ← queue_foldl_enterNode p nodes]
    rfl
  · rfl

/-! ### Microsteps -/

/-- The resolution at which a microstep comes to enter nodes: after its exits and the actions
of its transitions. -/
def arriving (chart : Chart) (imps : Implementations) (ts : List Transition) (trigger : Event)
    (p : Progress) : Progress :=
  ts.foldl (fun p t => p.act chart imps trigger t.actions)
    ((p.exiting chart ts).reverse.foldl (leave chart imps trigger)
      { p with history := recorded chart p.configuration p.history ts })

/-- The actions of a microstep before it enters nodes. -/
def departure (chart : Chart) (p : Progress) (ts : List Transition) : List Action :=
  (p.exiting chart ts).reverse.flatMap chart.exitActions ++ ts.flatMap Transition.actions

theorem microstep_eq_enter (p : Progress) (ts : List Transition) :
  microstep chart imps ts trigger p =
    (p.arriving chart imps ts trigger).enter chart imps trigger (p.entering chart ts)
  := by
  rw [microstep, (configuration_foldl_act _ ts).2, (configuration_foldl_leave _ _).2]
  rfl

theorem configuration_arriving (p : Progress) (ts : List Transition) :
  (p.arriving chart imps ts trigger).configuration =
    p.configuration.filter (fun n => n ∉ p.exiting chart ts)
  := by
  rw [arriving, (configuration_foldl_act _ ts).1, (configuration_foldl_leave _ _).1]
  simp only [List.mem_reverse]

theorem collected_arriving (p : Progress) (ts : List Transition) :
  (p.arriving chart imps ts trigger).collected =
    p.collected.collect chart imps trigger (p.departure chart ts)
  := by
  rw [arriving, collected_foldl_act, collected_foldl_leave, ← Collection.collect_append]
  rfl

theorem queue_arriving (p : Progress) (ts : List Transition) :
  (p.arriving chart imps ts trigger).queue = p.queue
  := by
  rw [arriving]
  generalize (p.exiting chart ts).reverse = exited
  have hleave : ∀ p : Progress, (exited.foldl (leave chart imps trigger) p).queue = p.queue := by
    induction exited with
    | nil => exact fun p => rfl
    | cons n exited ih => exact fun p => ih _
  have hact : ∀ p : Progress,
      (ts.foldl (fun p t => p.act chart imps trigger t.actions) p).queue = p.queue := by
    clear hleave
    induction ts with
    | nil => exact fun p => rfl
    | cons t ts ih => exact fun p => ih _
  rw [hact, hleave]

/-- What a microstep raises: by the actions before the entries, and by the entries. -/
def Step.raised (chart : Chart) (imps : Implementations) (x : Step) : List Raising :=
  x.before.collected.raisings chart imps x.trigger (x.before.departure chart x.transitions) ++
    (x.before.arriving chart imps x.transitions x.trigger).arrivals chart imps x.trigger
      (x.before.entering chart x.transitions)

/-- What a microstep raises joins the queue. -/
theorem Step.queue_after (x : Step) :
  (x.after chart imps).queue =
      x.before.queue ++ x.before.collected.raised ++
        (x.raised chart imps).map (Raising.event chart) ∧
    (x.after chart imps).collected.raised = []
  := by
  rw [Step.after, microstep_eq_enter]
  constructor
  · rw [(queue_enter _ _).1, queue_arriving, collected_arriving, Collection.raised_collect,
      Step.raised, List.map_append]
    simp only [List.append_assoc]
  · apply (queue_enter _ _).2

end Progress

namespace Machine

open Progress Chart

/-- What the entry of the default configuration raises when a machine starts. -/
def entryRaised (m : Machine) : List Raising :=
  arrivals m.chart m.implementations .init
    { configuration := [], history := [], collected := { context := m.context } }
    (m.chart.addDefaults root [])

theorem queue_entry (m : Machine) :
  m.entry.queue = m.entryRaised.map (Raising.event m.chart) ∧ m.entry.collected.raised = []
  := queue_enter _ _

end Machine

end Statechart
