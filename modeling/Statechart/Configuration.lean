import Statechart.Chart.Basic
import Statechart.Fault
import Statechart.NodeSet
import Statechart.StateValue

/-!
# Configurations and their addresses

A configuration is the set of the active nodes of a chart.  `Chart.address` is the state
value that names the active leaves, and `Chart.configurationOf` finds the configuration
that a state value names; where a value stops above the leaves, the default children are
active.
-/

namespace Statechart.Chart

/-- The address of the active leaves below a node.  The fuel bounds the depth. -/
def addressBelow (chart : Chart) (configuration : NodeSet) : Nat → Nat → StateValue
  | 0, _ => .branch []
  | fuel + 1, n =>
    match chart.kind n with
    | .compound _ =>
      match (chart.children n).find? (fun c => configuration.contains c) with
      | none => .branch []
      | some c =>
        if (chart.kind c).isAtomic then .leaf (chart.key c)
        else .branch [(chart.key c, chart.addressBelow configuration fuel c)]
    | .parallel =>
      .branch ((chart.regions n).foldl (fun done r =>
        Association.insertSorted (chart.key r) (chart.addressBelow configuration fuel r) done) [])
    | _ => .branch []

/-- The address of a configuration. -/
def address (chart : Chart) (configuration : NodeSet) : StateValue :=
  chart.addressBelow configuration chart.nodes.length root

/-- The child of a compound node that a value names, with the value below it. -/
def namedChild (chart : Chart) (n : Nat) (key : String) (below : Option StateValue) :
    Except AddressProblem (Nat × Option StateValue) :=
  match chart.child? n key with
  | some c => .ok (c, below)
  | none => .error (.notChild key (chart.nodeId n))

/-- The active child of a compound node under a value, with the value below it. -/
def activeChild (chart : Chart) (n initial : Nat) :
    Option StateValue → Except AddressProblem (Nat × Option StateValue)
  | none => .ok (initial, none)
  | some (.leaf key) => chart.namedChild n key none
  | some (.branch []) => .ok (initial, none)
  | some (.branch [(key, below)]) => chart.namedChild n key (some below)
  | some (.branch _) => .error (.severalChildren (chart.nodeId n))

/-- The values that a value names for the regions of a parallel node, by their keys. -/
def regionValues (chart : Chart) (n : Nat) :
    Option StateValue → Except AddressProblem (List (String × StateValue))
  | none => .ok []
  | some (.leaf key) => .error (.leafOfParallel (chart.nodeId n) key)
  | some (.branch children) =>
    match children.find? (fun e =>
      !(chart.child? n e.1).any (fun c => !(chart.kind c).isHistory)) with
    | some e => .error (.notRegion e.1 (chart.nodeId n))
    | none => .ok children

/-- The set with the nodes that are active below a node under a value.  The fuel bounds the
depth. -/
def activate (chart : Chart) :
    Nat → Nat → Option StateValue → NodeSet → Except AddressProblem NodeSet
  | 0, _, _, s => .ok s
  | fuel + 1, n, value, s =>
    match chart.kind n with
    | .compound initial => do
      let (c, below) ← chart.activeChild n initial value
      if (chart.kind c).isHistory then .error .historyActive
      else chart.activate fuel c below (NodeSet.insert c s)
    | .parallel => do
      let values ← chart.regionValues n value
      (chart.regions n).foldlM
        (fun s r => chart.activate fuel r (values.lookup (chart.key r)) (NodeSet.insert r s)) s
    | _ =>
      match value with
      | none => .ok s
      | some (.branch []) => .ok s
      | some _ => .error (.belowAtomic (chart.nodeId n))

/-- The configuration that a state value names. -/
def configurationOf (chart : Chart) (value : StateValue) : Except Fault NodeSet :=
  match chart.activate chart.nodes.length root (some value) [root] with
  | .ok s => .ok s
  | .error problem => .error (.invalidAddress problem)

end Statechart.Chart
