import Statechart.Action.Basic

/-!
# Machine documents

A machine as it is written: a tree of states with their transitions, actions and
invocations, and a context.  Everything that has an order is a list in document order.
-/

namespace Statechart

/-- How much of a configuration a history state records: the active children of its
parent, or the active leaves below it. -/
inductive HistoryDepth where
  | shallow
  | deep
  deriving DecidableEq, Repr

/-- The declared type of a state. -/
inductive StateType where
  | atomic
  | compound
  | parallel
  | final
  | history
  deriving DecidableEq, Repr

namespace Document

/-- A transition as written. -/
structure Transition where
  targets : List String := []
  guard : Option String := none
  actions : List Action := []
  internal : Bool := false

/-- An invocation as written. -/
structure Invocation where
  id : Option String := none
  src : String
  forward : Bool := false
  data : Option Mapping := none
  onDone : List Transition := []
  onError : List Transition := []

/-- What a state declares apart from its children. -/
structure Declaration where
  id : Option String := none
  type : Option StateType := none
  initial : Option String := none
  on : List (String × List Transition) := []
  always : List Transition := []
  after : List (String × List Transition) := []
  entry : List Action := []
  exit : List Action := []
  invoke : List Invocation := []
  onDone : List Transition := []
  data : Option Mapping := none
  history : Option HistoryDepth := none
  target : Option String := none

/-- A state with its children and their keys. -/
inductive State where
  | node (own : Declaration) (children : List (String × State))

namespace State

/-- What the state itself declares. -/
def own : State → Declaration
  | .node own _ => own

/-- The children with their keys. -/
def children : State → List (String × State)
  | .node _ children => children

mutual

/-- The number of states in the tree. -/
def size : State → Nat
  | .node _ children => 1 + sizeAll children

/-- The number of states in the trees of the children. -/
def sizeAll : List (String × State) → Nat
  | [] => 0
  | (_, child) :: rest => size child + sizeAll rest

end

theorem size_pos (s : State) :
  0 < s.size
  := by
  cases s with
  | node own children =>
    rw [size]
    exact Nat.lt_of_lt_of_le Nat.zero_lt_one (Nat.le_add_right 1 _)

end State

/-- A machine: the root state and the context it starts with. -/
structure Machine where
  context : Json := .null
  root : State

end Document

end Statechart
