import Statechart.Resolution.Selection

/-!
# Microsteps

One step of a machine under a set of transitions: nodes are exited from the last in
document order to the first, the actions of the transitions follow, and nodes are entered
in document order.  Entering a final node completes the machine or raises completion
events.
-/

namespace Statechart

/-- A resolution under way. -/
structure Progress where
  configuration : NodeSet
  history : History
  collected : Collection
  /-- The raised events that are still to be taken. -/
  queue : List Event := []
  done : Bool := false
  doneData : Option Json := none

namespace Progress

/-- The progress after further actions. -/
def act (chart : Chart) (imps : Implementations) (trigger : Event) (p : Progress)
    (actions : List Action) : Progress :=
  { p with collected := p.collected.collect chart imps trigger actions }

/-- What a history node of the given depth records when its parent is exited. -/
def recording (chart : Chart) (configuration : NodeSet) (parent : Nat) :
    HistoryDepth → List Nat
  | .deep => configuration.filter (fun n => (chart.kind n).isAtomic && chart.isBelow n parent)
  | .shallow => configuration.filter (fun n => chart.parent? n == some parent)

/-- The histories after the history children of an exited node have recorded. -/
def recordNode (chart : Chart) (configuration : NodeSet) (history : History) (n : Nat) :
    History :=
  (chart.children n).foldl (fun history c =>
    match chart.kind c with
    | .history depth _ =>
      Association.insertSorted c (recording chart configuration n depth) history
    | _ => history) history

/-- The progress after a node is exited. -/
def leave (chart : Chart) (imps : Implementations) (trigger : Event) (p : Progress)
    (n : Nat) : Progress :=
  let p := p.act chart imps trigger (((chart.node? n).map Node.exit).getD [])
  { p with configuration := p.configuration.erase n }

/-- Whether a node is completed: a compound node with an active final child, or a parallel
node whose regions are all completed.  The fuel bounds the depth. -/
def isComplete (chart : Chart) (configuration : NodeSet) : Nat → Nat → Bool
  | 0, _ => false
  | fuel + 1, n =>
    match chart.kind n with
    | .compound _ =>
      (chart.children n).any (fun c => (chart.kind c).isFinal && configuration.contains c)
    | .parallel => (chart.regions n).all (isComplete chart configuration fuel)
    | _ => false

/-- The done data of a final node; a failing expression gives none. -/
def dataOf (imps : Implementations) (context : Json) (trigger : Event)
    (data : Option Mapping) : Option Json :=
  data.bind (fun m => (m.evaluate imps.functions context trigger).toOption)

/-- The progress with one more raised event. -/
def raise (p : Progress) (event : Event) : Progress :=
  { p with collected := { p.collected with raised := p.collected.raised ++ [event] } }

/-- The progress after the final child of `parent` is entered: below the root the machine is
done, and elsewhere the parent is, and with it perhaps the parallel node above it. -/
def complete (chart : Chart) (parent : Nat) (data : Option Json) (p : Progress) :
    Progress :=
  if parent = Chart.root then { p with done := true, doneData := data }
  else
    let p := p.raise (.stateDone (chart.nodeId parent) (data.getD .null))
    match chart.parent? parent with
    | none => p
    | some above =>
      if (chart.kind above).isParallel &&
          (chart.regions above).all
            (isComplete chart p.configuration chart.depthBound) then
        p.raise (.stateDone (chart.nodeId above) .null)
      else p

/-- The progress after a node is entered. -/
def enterNode (chart : Chart) (imps : Implementations) (trigger : Event) (p : Progress)
    (n : Nat) : Progress :=
  let p := { p with configuration := NodeSet.insert n p.configuration }
  let p := p.act chart imps trigger (((chart.node? n).map Node.entry).getD [])
  match chart.kind n, chart.parent? n with
  | .final data, some parent =>
    p.complete chart parent (dataOf imps p.collected.context trigger data)
  | _, _ => p

/-- The progress after the nodes of a set are entered; then the raised events join the
queue. -/
def enter (chart : Chart) (imps : Implementations) (trigger : Event) (p : Progress)
    (nodes : NodeSet) : Progress :=
  let p := nodes.foldl (enterNode chart imps trigger) p
  { p with queue := p.queue ++ p.collected.raised, collected := { p.collected with raised := [] } }

/-- The nodes to enter with those of one more transition. -/
def addEntered (chart : Chart) (history : History) (s : NodeSet) (t : Transition) :
    NodeSet :=
  match chart.effectiveTargets history t with
  | [] => s
  | targets =>
    let s := t.aims.foldl (fun s n => chart.enterTarget history chart.depthBound n s) s
    targets.foldl (fun s n => chart.ascend (chart.domain t targets) n s) s

/-- The nodes that the transitions enter. -/
def entered (chart : Chart) (history : History) (ts : List Transition) : NodeSet :=
  ts.foldl (addEntered chart history) []

/-- The progress after one step under the given transitions. -/
def microstep (chart : Chart) (imps : Implementations) (ts : List Transition)
    (trigger : Event) (p : Progress) : Progress :=
  let exited := (chart.exited p.configuration p.history ts).reverse
  let p := { p with history := exited.foldl (recordNode chart p.configuration) p.history }
  let p := exited.foldl (leave chart imps trigger) p
  let p := ts.foldl (fun p t => p.act chart imps trigger t.actions) p
  p.enter chart imps trigger (entered chart p.history ts)

end Progress

end Statechart
