import Statechart.Action.Collection
import Statechart.Resolution.Entry

/-!
# Selected transitions

Which transitions an event takes.  Each active leaf contributes the first passing
transition of the nearest node on its way to the root; of two transitions that exit a node
in common the one whose source lies below the other's wins, or else the earlier one.
-/

namespace Statechart.Chart

/-- The nodes that a transition leads to, history nodes replaced. -/
def effectiveTargets (chart : Chart) (history : History) (t : Transition) : List Nat :=
  (t.aims.flatMap (chart.standsFor history chart.depthBound)).eraseDups

/-- The nearest proper ancestor of `n`, the root or a compound node, below which all of
`others` lie. -/
def commonAncestor (chart : Chart) (n : Nat) (others : List Nat) : Nat :=
  (((chart.ancestors n).filter (fun a => a == root || (chart.kind a).isCompound)).find?
    (fun a => others.all (fun m => chart.isBelow m a))).getD root

/-- The node inside which a transition moves: the source, if the transition is internal
and stays below a compound source, or else the nearest common ancestor of the source and
the targets. -/
def domain (chart : Chart) (t : Transition) (targets : List Nat) : Nat :=
  if t.internal && (chart.kind t.source).isCompound &&
      targets.all (fun n => chart.isBelow n t.source) then
    t.source
  else chart.commonAncestor t.source targets

/-- Whether a transition exits a node. -/
def exits (chart : Chart) (history : History) (t : Transition) (n : Nat) : Bool :=
  match chart.effectiveTargets history t with
  | [] => false
  | targets => chart.isBelow n (chart.domain t targets)

/-- The active nodes that some of the transitions exit, in document order. -/
def exited (chart : Chart) (configuration : NodeSet) (history : History)
    (ts : List Transition) : NodeSet :=
  configuration.filter (fun n => ts.any (fun t => chart.exits history t n))

/-- Whether two transitions exit a node in common. -/
def conflict (chart : Chart) (configuration : NodeSet) (history : History)
    (t u : Transition) : Bool :=
  (chart.exited configuration history [t]).any
    (fun n => (chart.exited configuration history [u]).contains n)

/-- The kept transitions after one more candidate. -/
def keep (chart : Chart) (configuration : NodeSet) (history : History)
    (kept : List Transition) (t : Transition) : List Transition :=
  let rivals := kept.filter (chart.conflict configuration history t)
  if rivals.all (fun u => chart.isBelow t.source u.source) then
    kept.filter (fun u => !chart.conflict configuration history t u) ++ [t]
  else kept

/-- Whether a transition is a candidate for an event, or for none. -/
def isCandidate (event : Event) (eventless : Bool) (t : Transition) : Bool :=
  if eventless then t.isEventless
  else !t.isEventless && event.matchesDescriptor t.event

/-- The first candidate of a node whose guard passes. -/
def firstPassing (chart : Chart) (imps : Implementations) (context : Json) (event : Event)
    (eventless : Bool) (n : Nat) : Option Transition :=
  (chart.transitions n).find? (fun t =>
    isCandidate event eventless t &&
      (t.guard.map (Guard.passes imps.guards context event)).getD true)

/-- The transition that an active leaf takes. -/
def takenBy (chart : Chart) (imps : Implementations) (context : Json) (event : Event)
    (eventless : Bool) (leaf : Nat) : Option Transition :=
  (leaf :: chart.ancestors leaf).findSome?
    (chart.firstPassing imps context event eventless)

/-- The active leaves. -/
def leaves (chart : Chart) (configuration : NodeSet) : List Nat :=
  configuration.filter (fun n => (chart.kind n).isAtomic)

/-- The transitions without those that stand earlier in the list. -/
def distinct (ts : List Transition) : List Transition :=
  ts.foldl (fun done t => if done.any (fun u => u.order == t.order) then done else done ++ [t]) []

/-- The transitions that an event takes, or, if `eventless` holds, those that wait for no
event; their guards see the event either way. -/
def select (chart : Chart) (imps : Implementations) (configuration : NodeSet)
    (history : History) (context : Json) (event : Event) (eventless : Bool) :
    List Transition :=
  (distinct ((chart.leaves configuration).filterMap
    (chart.takenBy imps context event eventless))).foldl
      (chart.keep configuration history) []

end Statechart.Chart
