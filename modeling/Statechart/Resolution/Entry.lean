import Statechart.Chart.Basic
import Statechart.NodeSet
import Statechart.Snapshot

/-!
# Entered nodes

Which nodes a transition enters.  `descend` adds a node with its default descendants,
`ascend` adds the ancestors of a node below a domain and completes parallel ones, and
`enterTarget` adds what a target stands for, where a history node stands for its recorded
configuration or its default.
-/

namespace Statechart.Chart

/-- Whether some node of the set lies below `n`. -/
def holdsBelow (chart : Chart) (s : NodeSet) (n : Nat) : Bool :=
  s.any (fun m => chart.isBelow m n)

/-- The set with the regions of a node that hold no node yet, each added by `add`. -/
def completeRegions (chart : Chart) (add : Nat → NodeSet → NodeSet) (regions : List Nat)
    (s : NodeSet) : NodeSet :=
  regions.foldl (fun s r => if chart.holdsBelow s r then s else add r s) s

/-- The set with a node and its default descendants: the initial child of a compound node
and the regions of a parallel one.  The fuel bounds the depth of the descent. -/
def descend (chart : Chart) : Nat → Nat → NodeSet → NodeSet
  | 0, _, s => s
  | fuel + 1, n, s =>
    match chart.kind n with
    | .atomic => s.insert n
    | .final _ => s.insert n
    | .compound initial => chart.descend fuel initial (NodeSet.insert n s)
    | .parallel =>
      chart.completeRegions (chart.descend fuel) (chart.regions n) (NodeSet.insert n s)
    | .history .. => s

/-- A descent goes at most through all nodes. -/
def depthBound (chart : Chart) : Nat :=
  chart.nodes.length

/-- The set with a node and its default descendants. -/
def addDefaults (chart : Chart) (n : Nat) (s : NodeSet) : NodeSet :=
  chart.descend chart.depthBound n s

/-- The set with one ancestor, whose regions are completed if it is parallel. -/
def addAncestor (chart : Chart) (s : NodeSet) (a : Nat) : NodeSet :=
  let s := NodeSet.insert a s
  if (chart.kind a).isParallel then
    chart.completeRegions chart.addDefaults (chart.regions a) s
  else s

/-- The set with the ancestors of a node below the domain. -/
def ascend (chart : Chart) (domain n : Nat) (s : NodeSet) : NodeSet :=
  ((chart.ancestors n).takeWhile (· ≠ domain)).foldl chart.addAncestor s

/-- What a history node stands for when nothing is recorded: its declared default, or else
the default children of its parent. -/
def historyDefault (chart : Chart) (n : Nat) (defaults : List Nat) : List Nat :=
  if !defaults.isEmpty then defaults
  else
    match chart.parent? n with
    | none => []
    | some p =>
      match chart.kind p with
      | .compound initial => [initial]
      | _ => chart.regions p

/-- What a history node stands for. -/
def restored (chart : Chart) (history : History) (n : Nat) (defaults : List Nat) :
    List Nat :=
  match history.lookup n with
  | some recorded => recorded
  | none => chart.historyDefault n defaults

/-- The set with what a target stands for.  The fuel bounds the length of a chain of
history nodes that stand for each other. -/
def enterTarget (chart : Chart) (history : History) : Nat → Nat → NodeSet → NodeSet
  | 0, _, s => s
  | fuel + 1, n, s =>
    match chart.kind n with
    | .history _ defaults =>
      let nodes := chart.restored history n defaults
      let s := nodes.foldl (fun s m => chart.enterTarget history fuel m s) s
      nodes.foldl (fun s m => chart.ascend ((chart.parent? n).getD n) m s) s
    | _ => chart.addDefaults n s

/-- The nodes that a target stands for, history nodes replaced.  The fuel bounds the length
of a chain of history nodes that stand for each other. -/
def standsFor (chart : Chart) (history : History) : Nat → Nat → List Nat
  | 0, _ => []
  | fuel + 1, n =>
    match chart.kind n with
    | .history _ defaults =>
      (chart.restored history n defaults).flatMap (chart.standsFor history fuel)
    | _ => [n]

end Statechart.Chart
