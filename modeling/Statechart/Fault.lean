import Statechart.Guard.Basic

/-!
# Faults

What can be wrong with a machine document, with an address of active leaves, and with a
machine that does not settle.  Each fault has a code and a message.
-/

namespace Statechart

/-- What can be wrong with the declaration of a state. -/
inductive StateProblem where
  | atomicWithChildren
  | finalWithChildren
  | historyWithChildren
  | rootHistory
  | parallelWithoutRegions
  | compoundWithoutChildren
  | initialNotChild (key : String)
  | initialHistory
  | emptyEventName
  | duplicateInvocation (id : String)
  deriving DecidableEq, Repr

/-- The problem in words. -/
def StateProblem.text : StateProblem → String
  | .atomicWithChildren => "atomic state cannot have children"
  | .finalWithChildren => "final state cannot have children"
  | .historyWithChildren => "history state cannot have children"
  | .rootHistory => "root cannot be a history state"
  | .parallelWithoutRegions => "parallel state has no regions"
  | .compoundWithoutChildren => "compound state has no children"
  | .initialNotChild key => "initial state '" ++ key ++ "' is not a child"
  | .initialHistory => "initial state cannot be a history state"
  | .emptyEventName => "empty event name; use 'always'"
  | .duplicateInvocation id => "duplicate invocation id '" ++ id ++ "'"

/-- What can be wrong with an address of active leaves. -/
inductive AddressProblem where
  | notChild (key state : String)
  | historyActive
  | severalChildren (state : String)
  | leafOfParallel (state key : String)
  | notRegion (key state : String)
  | belowAtomic (state : String)
  deriving DecidableEq, Repr

/-- The problem in words. -/
def AddressProblem.text : AddressProblem → String
  | .notChild key state => "'" ++ key ++ "' is not a child of '" ++ state ++ "'"
  | .historyActive => "a history state cannot be active"
  | .severalChildren state =>
    "compound state '" ++ state ++ "' must have exactly one active child"
  | .leafOfParallel state key =>
    "parallel state '" ++ state ++ "' needs a value per region, got '" ++ key ++ "'"
  | .notRegion key state => "'" ++ key ++ "' is not a region of '" ++ state ++ "'"
  | .belowAtomic state => "'" ++ state ++ "' is atomic and has no children"

/-- What can go wrong with a machine. -/
inductive Fault where
  | noStates
  | illFormed (state : String) (problem : StateProblem)
  | duplicateId (id : String)
  | unknownTarget (source target : String)
  | invalidGuard (refusal : Guard.Refusal)
  | invalidAddress (problem : AddressProblem)
  | microstepLimit (limit : Nat) (event : String)
  deriving DecidableEq, Repr

namespace Fault

/-- The code of a fault. -/
def code : Fault → String
  | .noStates => "INVALID_DEFINITION"
  | .illFormed .. => "INVALID_DEFINITION"
  | .duplicateId _ => "DUPLICATE_ID"
  | .unknownTarget .. => "UNKNOWN_TARGET"
  | .invalidGuard _ => "INVALID_GUARD"
  | .invalidAddress _ => "INVALID_STATE_VALUE"
  | .microstepLimit .. => "MICROSTEP_LIMIT"

/-- The message of a fault. -/
def message : Fault → String
  | .noStates => "invalid machine definition: machine has no states"
  | .illFormed state problem =>
    "invalid machine definition: state '" ++ state ++ "': " ++ problem.text
  | .duplicateId id => "duplicate state id: " ++ id
  | .unknownTarget source target =>
    "unknown transition target '" ++ target ++ "' from state '" ++ source ++ "'"
  | .invalidGuard refusal => "invalid guard expression: " ++ refusal.reason
  | .invalidAddress problem => "invalid state value: " ++ problem.text
  | .microstepLimit limit event =>
    "microstep limit (" ++ toString limit ++ ") exceeded while processing '" ++ event ++ "'"

/-- Whether the fault lies in the definition of the machine; an address comes from
elsewhere. -/
def isConfiguration : Fault → Bool
  | .invalidAddress _ => false
  | _ => true

end Fault

end Statechart
