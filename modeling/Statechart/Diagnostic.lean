import Statechart.Mailbox

/-!
# Diagnostics

Problems that do not end an interpreter by themselves: misuse of its operations and
references that lead nowhere.  They are reported beside the answers.
-/

namespace Statechart

/-- The id of a delayed send as it is shown. -/
def SendId.text : SendId → String
  | .named id => id
  | .automatic _ => "send-<uuid>"

/-- A reported problem. -/
inductive Diagnostic where
  | sentAfterStop (event : String)
  | notStarted (event : String)
  | alreadyStarted
  | unresolvedAction (type reason : String)
  | unknownService (id src : String)
  | unknownTarget (target event : String)
  | configurationError (reason : String)
  | timerUnavailable (sendId : SendId)
  deriving DecidableEq, Repr

namespace Diagnostic

/-- The code of a problem. -/
def code : Diagnostic → String
  | .sentAfterStop _ => "SEND_AFTER_STOP"
  | .notStarted _ => "NOT_STARTED"
  | .alreadyStarted => "ALREADY_STARTED"
  | .unresolvedAction .. => "UNRESOLVED_ACTION"
  | .unknownService .. => "UNKNOWN_SERVICE"
  | .unknownTarget .. => "UNKNOWN_TARGET"
  | .configurationError _ => "CONFIGURATION_ERROR"
  | .timerUnavailable _ => "TIMER_UNAVAILABLE"

/-- The message of a problem. -/
def message : Diagnostic → String
  | .sentAfterStop event => "event '" ++ event ++ "' sent to a stopped interpreter"
  | .notStarted event => "event '" ++ event ++ "' sent before start"
  | .alreadyStarted => "interpreter already started"
  | .unresolvedAction type reason => "unresolved action '" ++ type ++ "': " ++ reason
  | .unknownService id src => "no service '" ++ src ++ "' for invocation '" ++ id ++ "'"
  | .unknownTarget target event => "no target '" ++ target ++ "' for event '" ++ event ++ "'"
  | .configurationError reason => "configuration error: " ++ reason
  | .timerUnavailable sendId =>
    "delayed send '" ++ sendId.text ++ "' could not be scheduled"

/-- Whether the caller misused an operation, and not the machine a reference. -/
def isMisuse : Diagnostic → Bool
  | .sentAfterStop _ => true
  | .notStarted _ => true
  | .alreadyStarted => true
  | _ => false

end Diagnostic

end Statechart
