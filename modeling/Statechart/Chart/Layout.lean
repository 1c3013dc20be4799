import Statechart.Chart.Basic

/-!
# Layout of charts

The nodes of a machine document in document order, with their ids, keys, paths, parents
and children.  A tree of `s` states laid out from place `n` on takes the places `n` to
`n + s - 1`, its root the first.
-/

namespace Statechart.Chart

open Document (Declaration State)

/-- A node that is laid out, with what it declares. -/
structure Place where
  own : Declaration
  node : Node

/-- The id of a machine whose root declares none. -/
def defaultId : String := "machine"

/-- The id of a state: the declared one, or the machine id with the path. -/
def stateId (machine : String) (path : List String) (own : Declaration) : String :=
  match own.id with
  | some id => id
  | none => if path = [] then machine else machine ++ "." ++ Text.join "." path

/-- The places of the children, the first of which takes the place `start`. -/
def childPlaces (start : Nat) : List (String × State) → List Nat
  | [] => []
  | (_, child) :: rest => start :: childPlaces (start + child.size) rest

/-- The place that a state takes, its kind and transitions still to be found. -/
def place (machine : String) (start : Nat) (path : List String) (parent : Option Nat)
    (own : Declaration) (children : List (String × State)) : Place where
  own := own
  node :=
    { id := stateId machine path own
      key := path.getLast?.getD ""
      path := path
      parent := parent
      children := childPlaces (start + 1) children
      kind := .atomic
      transitions := []
      entry := own.entry
      exit := own.exit
      invocations := [] }

mutual

/-- The places of a tree of states from the place `start` on. -/
def layOut (machine : String) (start : Nat) (path : List String) (parent : Option Nat) :
    State → List Place
  | .node own children =>
    place machine start path parent own children ::
      layOutAll machine (start + 1) path start children

/-- The places of the trees of the children of `parent` from the place `start` on. -/
def layOutAll (machine : String) (start : Nat) (path : List String) (parent : Nat) :
    List (String × State) → List Place
  | [] => []
  | (key, child) :: rest =>
    layOut machine start (path ++ [key]) (some parent) child ++
      layOutAll machine (start + child.size) path parent rest

end

mutual

theorem length_layOut (machine : String) (start : Nat) (path : List String)
    (parent : Option Nat) (s : State) :
  (layOut machine start path parent s).length = s.size
  := by
  cases s with
  | node own children =>
    simp only [layOut, List.length_cons, State.size]
    rw [length_layOutAll machine (start + 1) path start children]
    omega

theorem length_layOutAll (machine : String) (start : Nat) (path : List String)
    (parent : Nat) (children : List (String × State)) :
  (layOutAll machine start path parent children).length = State.sizeAll children
  := by
  cases children with
  | nil => simp [layOutAll, State.sizeAll]
  | cons e rest =>
    obtain ⟨key, child⟩ := e
    simp only [layOutAll, List.length_append, State.sizeAll]
    rw [length_layOut machine start (path ++ [key]) (some parent) child,
      length_layOutAll machine (start + child.size) path parent rest]

end

/-- The places of a machine. -/
def places (m : Document.Machine) : List Place :=
  layOut (m.root.own.id.getD defaultId) 0 [] none m.root

end Statechart.Chart
