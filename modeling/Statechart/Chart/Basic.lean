import Statechart.Document.Basic
import Statechart.Guard.Basic

/-!
# Charts

A chart is a machine document compiled to an arena of nodes.  A node is known by its place
in document order, the root being node 0, so that a parent comes before its descendants.
-/

namespace Statechart

/-- A transition of a chart. -/
structure Transition where
  /-- The descriptor of its events; empty for an eventless transition. -/
  event : String
  source : Nat
  targets : List Nat
  guard : Option Guard
  actions : List Action
  internal : Bool
  /-- The place among all transitions of the chart. -/
  order : Nat

namespace Transition

/-- Whether the transition waits for no event. -/
def isEventless (t : Transition) : Bool :=
  t.event == ""

/-- Whether the transition has no target. -/
def isTargetless (t : Transition) : Bool :=
  t.targets.isEmpty

/-- The targets; a transition without one leads to its own source unless it is internal. -/
def aims (t : Transition) : List Nat :=
  if t.targets.isEmpty && !t.internal then [t.source] else t.targets

end Transition

/-- An invocation of a chart. -/
structure Invocation where
  id : String
  src : String
  forward : Bool
  data : Option Mapping
  owner : Nat

namespace Invocation

/-- Invocations are equal when all their parts are. -/
def beq (a b : Invocation) : Bool :=
  a.id == b.id && a.src == b.src && a.forward == b.forward && a.data == b.data &&
    a.owner == b.owner

instance : BEq Invocation := ⟨beq⟩

end Invocation

/-- What sets the kinds of nodes apart. -/
inductive Kind where
  | atomic
  | compound (initial : Nat)
  | parallel
  | final (data : Option Mapping)
  | history (depth : HistoryDepth) (defaults : List Nat)

namespace Kind

/-- Whether a node of this kind has no active children: atomic and final nodes. -/
def isAtomic : Kind → Bool
  | .atomic => true
  | .final _ => true
  | _ => false

/-- Whether a node of this kind has one active child. -/
def isCompound : Kind → Bool
  | .compound _ => true
  | _ => false

/-- Whether a node of this kind has all its regions active. -/
def isParallel : Kind → Bool
  | .parallel => true
  | _ => false

/-- Whether a node of this kind completes its parent. -/
def isFinal : Kind → Bool
  | .final _ => true
  | _ => false

/-- Whether a node of this kind stands for a recorded configuration. -/
def isHistory : Kind → Bool
  | .history .. => true
  | _ => false

end Kind

/-- A node of a chart. -/
structure Node where
  id : String
  /-- The key below the parent. -/
  key : String
  /-- The keys from the root to the node. -/
  path : List String
  parent : Option Nat
  children : List Nat
  kind : Kind
  transitions : List Transition
  entry : List Action
  exit : List Action
  invocations : List Invocation

/-- The distance of a node from the root. -/
def Node.depth (n : Node) : Nat :=
  n.path.length

/-- A compiled machine. -/
structure Chart where
  id : String
  context : Json
  nodes : List Node
  document : Document.Machine
  checksum : String

namespace Chart

/-- What the name of the event of a delayed transition begins with. -/
def afterLead : String := "harel.after("

/-- The name of the event of a delayed transition of a state. -/
def afterEvent (key state : String) : String :=
  afterLead ++ key ++ ")#" ++ state

/-- The root. -/
def root : Nat := 0

/-- The node at a place. -/
def node? (chart : Chart) (n : Nat) : Option Node :=
  chart.nodes[n]?

/-- The kind of a node. -/
def kind (chart : Chart) (n : Nat) : Kind :=
  ((chart.node? n).map Node.kind).getD .atomic

/-- The parent of a node. -/
def parent? (chart : Chart) (n : Nat) : Option Nat :=
  (chart.node? n).bind Node.parent

/-- The children of a node. -/
def children (chart : Chart) (n : Nat) : List Nat :=
  ((chart.node? n).map Node.children).getD []

/-- The key of a node. -/
def key (chart : Chart) (n : Nat) : String :=
  ((chart.node? n).map Node.key).getD ""

/-- The id of a node. -/
def nodeId (chart : Chart) (n : Nat) : String :=
  ((chart.node? n).map Node.id).getD ""

/-- The transitions of a node. -/
def transitions (chart : Chart) (n : Nat) : List Transition :=
  ((chart.node? n).map Node.transitions).getD []

/-- The children of a node that are no history nodes. -/
def regions (chart : Chart) (n : Nat) : List Nat :=
  (chart.children n).filter (fun c => !(chart.kind c).isHistory)

/-- The node with the given id, which any number of `#` may precede. -/
def find? (chart : Chart) (id : String) : Option Nat :=
  chart.nodes.findIdx? (fun n => n.id == Text.dropLeading '#' id)

/-- The invocation with the given id. -/
def invocation? (chart : Chart) (id : String) : Option Invocation :=
  (chart.nodes.flatMap Node.invocations).find? (fun i => i.id == id)

/-- The child of a node with the given key. -/
def child? (chart : Chart) (n : Nat) (key : String) : Option Nat :=
  (chart.children n).find? (fun c => chart.key c == key)

/-- The ancestors of a node, from its parent to the root. -/
def ancestors (chart : Chart) (n : Nat) : List Nat :=
  match chart.parent? n with
  | some p => if p < n then p :: chart.ancestors p else []
  | none => []
termination_by n

/-- Whether `n` lies strictly below `a`. -/
def isBelow (chart : Chart) (n a : Nat) : Bool :=
  (chart.ancestors n).contains a

/-- The descriptors that some transition of the chart waits for, sorted. -/
def events (chart : Chart) : List String :=
  let all := (chart.nodes.flatMap Node.transitions).map Transition.event
  (Association.sorted ((all.filter (· ≠ "")).map (fun e => (e, ())))).map Prod.fst

end Chart

end Statechart
