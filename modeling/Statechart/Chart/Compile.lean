import Statechart.Chart.Layout
import Statechart.Checksum
import Statechart.Document.Printer
import Statechart.Document.Reader
import Statechart.Fault
import Statechart.Guard.Reader
import Statechart.Json.Reader

/-!
# Compilation of charts

`Chart.ofDocument` turns a machine document into a chart or finds the first fault: states
without ids of their own, kinds that do not fit the children, targets that lead nowhere,
guards that do not read.  A delayed transition becomes an event that the state sends itself
on entry and cancels on exit, and an invocation is started on entry and stopped on exit.
-/

namespace Statechart.Chart

open Document (Declaration)

/-- The first id that occurs a second time. -/
def repeatedId? (seen : List String) : List String → Option String
  | [] => none
  | id :: rest => if seen.contains id then some id else repeatedId? (id :: seen) rest

/-- The declared type of a state, or the one that its declaration implies. -/
def declaredType (p : Place) : StateType :=
  match p.own.type, p.own.history with
  | some type, _ => type
  | none, some _ => .history
  | none, none => if p.node.children.isEmpty then .atomic else .compound

/-- The child of a node with the given key. -/
def childNamed? (ps : List Place) (n : Node) (key : String) : Option Nat :=
  n.children.find? (fun c => (ps[c]?).any (fun p => p.node.key == key))

/-- Whether a state is declared to be a history state, by its type or its depth. -/
def declaresHistory (p : Place) : Bool :=
  p.own.type == some .history || p.own.history.isSome

/-- The initial child of a compound state: the declared one or the first. -/
def initialOf (ps : List Place) (p : Place) (first : Nat) : Except StateProblem Nat := do
  let initial ← match p.own.initial with
    | none => .ok first
    | some key =>
      match childNamed? ps p.node key with
      | some c => .ok c
      | none => .error (.initialNotChild key)
  if (ps[initial]?).any declaresHistory then .error .initialHistory else .ok initial

/-- The kind of a place; the defaults of a history node are still to be found. -/
def kindOf (ps : List Place) (p : Place) : Except StateProblem Kind :=
  match declaredType p, p.node.children with
  | .atomic, [] => .ok .atomic
  | .atomic, _ => .error .atomicWithChildren
  | .final, [] => .ok (.final p.own.data)
  | .final, _ => .error .finalWithChildren
  | .history, [] =>
    if p.node.parent.isNone then .error .rootHistory
    else .ok (.history (p.own.history.getD .shallow) [])
  | .history, _ => .error .historyWithChildren
  | .parallel, [] => .error .parallelWithoutRegions
  | .parallel, _ => .ok .parallel
  | .compound, [] => .error .compoundWithoutChildren
  | .compound, first :: _ => (initialOf ps p first).map .compound

/-- The place that a target leads to: `#id` is absolute, `.a.b` descends from the source,
and any other path from the parent of the source. -/
def targetOf (ps : List Place) (index : Nat) (n : Node) (target : String) :
    Except Fault Nat :=
  let descend (start : Nat) (path : String) : Option Nat :=
    (Text.segments '.' path).foldlM
      (fun at_ key => (ps[at_]?).bind (fun p => childNamed? ps p.node key)) start
  let found := match Text.after? "#" target with
    | some id => ps.findIdx? (fun p => p.node.id == id)
    | none =>
      match Text.after? "." target with
      | some path => descend index path
      | none => descend (n.parent.getD index) target
  match found with
  | some t => .ok t
  | none => .error (.unknownTarget n.id target)

/-- The transition that a candidate for `event` declares; its order is still to be
found. -/
def transitionOf (ps : List Place) (index : Nat) (n : Node) (event : String)
    (t : Document.Transition) : Except Fault Transition := do
  let targets ← t.targets.mapM (targetOf ps index n)
  let guard ← match t.guard with
    | none => .ok none
    | some text =>
      match Guard.read text with
      | .ok guard => .ok (some guard)
      | .error refusal => .error (.invalidGuard refusal)
  .ok { event, source := index, targets, guard, actions := t.actions,
        internal := t.internal, order := 0 }

/-- The id of an invocation: the declared one, or the state with the place of the
invocation. -/
def invocationId (state : String) (position : Nat) (i : Document.Invocation) : String :=
  i.id.getD (state ++ ":invocation[" ++ toString position ++ "]")

/-- The invocations of a state, the first of them at the given position. -/
def invocationsOf (owner : Nat) (state : String) (position : Nat) :
    List Document.Invocation → List Invocation
  | [] => []
  | i :: rest =>
    { id := invocationId state position i, src := i.src, forward := i.forward,
      data := i.data, owner } :: invocationsOf owner state (position + 1) rest

/-- The transitions that the invocations of a state declare; no id may be taken already. -/
def invokeTransitions (ps : List Place) (index : Nat) (n : Node) (taken : List String)
    (position : Nat) : List Document.Invocation → Except Fault (List Transition)
  | [] => .ok []
  | i :: rest => do
    let id := invocationId n.id position i
    if taken.contains id then .error (.illFormed n.id (.duplicateInvocation id))
    else
      let done ← i.onDone.mapM (transitionOf ps index n (Event.doneInvocation ++ id))
      let failed ← i.onError.mapM (transitionOf ps index n (Event.failedInvocation ++ id))
      let others ← invokeTransitions ps index n (id :: taken) (position + 1) rest
      .ok (done ++ failed ++ others)

/-- All transitions that a state declares, in order. -/
def transitionsOf (ps : List Place) (index : Nat) (taken : List String) (p : Place) :
    Except Fault (List Transition) := do
  let n := p.node
  let on ← p.own.on.mapM (fun (event, ts) =>
    if event = "" then .error (.illFormed n.id .emptyEventName)
    else ts.mapM (transitionOf ps index n event))
  let after ← p.own.after.mapM (fun (key, ts) =>
    ts.mapM (transitionOf ps index n (afterEvent key n.id)))
  let always ← p.own.always.mapM (transitionOf ps index n "")
  let done ← p.own.onDone.mapM (transitionOf ps index n (Event.doneState ++ n.id))
  let invoked ← invokeTransitions ps index n taken 0 p.own.invoke
  .ok (on.flatten ++ after.flatten ++ always ++ done ++ invoked)

/-- The transitions numbered from `order` on. -/
def numbered (order : Nat) (ts : List Transition) : List Transition :=
  ts.zipIdx.map (fun (t, i) => { t with order := order + i })

/-- The action that sends a state the event of one of its delayed transitions. -/
def armDelay (state key : String) : Action :=
  .send (.fixed (.bare (afterEvent key state))) (some (Delay.ofKey key)) none
    (some (afterEvent key state))

/-- The node at a place, complete with transitions, invocations and the actions that arm
and disarm them. -/
def linked (ps : List Place) (index order : Nat) (taken : List String) (p : Place)
    (kind : Kind) : Except Fault Node := do
  let n := p.node
  let transitions ← transitionsOf ps index taken p
  let kind ← match kind with
    | .history depth _ =>
      match p.own.target with
      | some target => do .ok (.history depth [← targetOf ps index n target])
      | none => .ok (.history depth [])
    | other => .ok other
  let invocations := invocationsOf index n.id 0 p.own.invoke
  let delays := p.own.after.map Prod.fst
  .ok
    { n with
      kind
      transitions := numbered order transitions
      invocations
      entry := n.entry ++ delays.map (armDelay n.id) ++
        invocations.map (fun i => .start i.id)
      exit := n.exit ++ delays.map (fun key => .cancel (afterEvent key n.id)) ++
        invocations.map (fun i => .stop i.id) }

/-- The nodes at the given places, the first of them node `index` with transitions
numbered from `order` on, while the invocation ids `taken` are in use. -/
def linkAll (ps : List Place) (index order : Nat) (taken : List String) :
    List (Place × Kind) → Except Fault (List Node)
  | [] => .ok []
  | (p, kind) :: rest => do
    let n ← linked ps index order taken p kind
    let others ← linkAll ps (index + 1) (order + n.transitions.length)
      (n.invocations.map Invocation.id ++ taken) rest
    .ok (n :: others)

/-- The chart of a machine document, or its first fault. -/
def ofDocument (m : Document.Machine) : Except Fault Chart := do
  if m.root.children.isEmpty then throw .noStates
  let ps := places m
  if let some id := repeatedId? [] (ps.map (fun p => p.node.id)) then
    throw (.duplicateId id)
  let kinds ← ps.mapM (fun p =>
    match kindOf ps p with
    | .ok kind => .ok kind
    | .error problem => .error (.illFormed p.node.id problem))
  let nodes ← linkAll ps 0 0 [] (ps.zip kinds)
  .ok { id := m.root.own.id.getD defaultId, context := m.context, nodes, document := m,
        checksum := Checksum.ofText m.toJson.compact }

/-- The JSON form of a chart: that of its document, in which the last of equal keys counts. -/
def toJson (chart : Chart) : Json :=
  chart.document.toJson.merged

/-- Why a text or a value makes no chart. -/
inductive Refusal where
  | unreadable
  | faulty (fault : Fault)

/-- The chart of a machine document in JSON. -/
def ofJson (value : Json) : Except Refusal Chart :=
  match Document.Machine.ofJson? value with
  | none => .error .unreadable
  | some m =>
    match ofDocument m with
    | .ok chart => .ok chart
    | .error fault => .error (.faulty fault)

/-- The chart of a machine document in JSON text. -/
def ofText (text : String) : Except Refusal Chart :=
  match Json.read? text with
  | none => .error .unreadable
  | some value => ofJson value

end Statechart.Chart
